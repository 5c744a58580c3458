import Xv6Boot.Bootloader.Boot

/-! # The kernel image as an ELF file

The fields of the loadable segment, what it takes for them to be part of the measured bytes, and the
memory at reset: the linked bootloader, the disk image, and arbitrary RAM.
-/

namespace Xv6Boot.Start
open ByteMemory Loop StringC Layout Elf Sha256C

/-! ## The loadable segment -/

def segVaddr (m : Mem) : Addr := load 64 m (off (textPhdr m RAMDISK) Proghdr.vaddr)
def segOffset (m : Mem) : ℕ := (load 64 m (off (textPhdr m RAMDISK) Proghdr.offset)).toNat
def kernelRange (m : Mem) : Set Addr := loadRange (segVaddr m) (numBlocks m)

/-- The ELF header and the second program header lie in the measured part of the image. -/
structure HeadersInside (m : Mem) : Prop where
  header : Elfhdr.size ≤ kernelSize m
  phdr : span (textPhdr m RAMDISK) Proghdr.size ⊆ imageSpan m

namespace HeadersInside
variable {m m' : Mem} {s : Set Addr} (h : HeadersInside m) (hf : Frame s m m')
  (hd : Disjoint (imageSpan m) s)
include h hd

theorem header_disjoint : Disjoint (span RAMDISK Elfhdr.size) s := hd.mono_left (span_mono _ h.header)

include hf

theorem kernelSize_eq : kernelSize m' = kernelSize m := kernelSize_frame hf (h.header_disjoint hd)

theorem elfEntry_eq : elfEntry m' RAMDISK = elfEntry m RAMDISK := elfEntry_frame hf (h.header_disjoint hd)

theorem textPhdr_eq : textPhdr m' RAMDISK = textPhdr m RAMDISK := textPhdr_frame hf (h.header_disjoint hd)

theorem segVaddr_eq : segVaddr m' = segVaddr m := by
  unfold segVaddr
  rw [h.textPhdr_eq hf hd]
  apply hf.load_eq _ (by norm_num)
  exact hd.mono_left ((span_off_subset _ (by decide) (by decide)).trans h.phdr)

theorem kernelRange_eq : kernelRange m' = kernelRange m := by
  unfold kernelRange numBlocks
  rw [h.segVaddr_eq hf hd, h.kernelSize_eq hf hd]

theorem imageSpan_eq : imageSpan m' = imageSpan m := by
  unfold imageSpan
  rw [h.kernelSize_eq hf hd]

theorem transfer : HeadersInside m' where
  header := by
    rw [h.kernelSize_eq hf hd]
    exact h.header
  phdr := by
    rw [h.textPhdr_eq hf hd, h.imageSpan_eq hf hd]
    exact h.phdr

end HeadersInside

variable {m : Mem}

theorem findKernelLoadAddr_eq_segVaddr (h : HeadersInside m)
    (hs : kernelSize m < FSSIZE * BSIZE) : (findKernelLoadAddr .NORMAL m).1 = segVaddr m := by
  apply findKernelLoadAddr_eq
  apply Disjoint.mono_left _ ((imageSpan_disjoint hs).mono_right headerPtrs_subset)
  exact (span_off_subset _ (by decide) (by decide)).trans h.phdr

theorem bootLoadAddr_eq_segVaddr (h : HeadersInside m) (hs : kernelSize m < FSSIZE * BSIZE) :
    bootLoadAddr m = segVaddr m := by
  have hf := (sha256Init_spec m sha256Ctx).1
  have hd : Disjoint (imageSpan m) (span sha256Ctx Ctx.size) := (imageSpan_disjoint hs).mono_right ctx_subset
  unfold bootLoadAddr
  rw [findKernelLoadAddr_eq_segVaddr (h.transfer hf hd) (by rwa [h.kernelSize_eq hf hd]),
    h.segVaddr_eq hf hd]

theorem bootRange_handover (h : HeadersInside m) (hs : kernelSize m < FSSIZE * BSIZE) :
    bootRange (handover m) = kernelRange m := by
  have hf := handover_frame m
  have hd : Disjoint (imageSpan m) (span sysInfoPtr 8) := (imageSpan_disjoint hs).mono_right sysInfoPtr_subset
  unfold bootRange kernelRange
  rw [bootLoadAddr_eq_segVaddr (h.transfer hf hd) (by rwa [handover_kernelSize]), h.segVaddr_eq hf hd,
    handover_numBlocks]

/-- Program header `j`. -/
def phdrAddr (m : Mem) (j : ℕ) : Addr := off (RAMDISK + load 64 m (off RAMDISK Elfhdr.phoff)) (Proghdr.size * j)

def phnum (m : Mem) : ℕ := (load 16 m (off RAMDISK Elfhdr.phnum)).toNat

/-- An ELF64 file as `kernel.ld` lays it out: one `PT_LOAD` segment, the second program header, whose
bytes start at file offset 4096. -/
structure KernelImage (m : Mem) : Prop where
  magic : load 32 m (off RAMDISK Elfhdr.magic) = 0x464C457F#32
  header : Elfhdr.size ≤ kernelSize m
  phentsize : load 16 m (off RAMDISK Elfhdr.phentsize) = BitVec.ofNat 16 Proghdr.size
  phnum_ge : 2 ≤ phnum m
  table : (load 64 m (off RAMDISK Elfhdr.phoff)).toNat + Proghdr.size * phnum m ≤ kernelSize m
  segment : load 32 m (off (phdrAddr m 1) Proghdr.type) = 1#32
  single : ∀ j < phnum m, j ≠ 1 → load 32 m (off (phdrAddr m j) Proghdr.type) ≠ 1#32
  offset : segOffset m = 4 * BSIZE

theorem KernelImage.headersInside (h : KernelImage m) (hs : kernelSize m < FSSIZE * BSIZE) :
    HeadersInside m where
  header := h.header
  phdr := by
    have ht := h.table
    have hn := h.phnum_ge
    have haddr : textPhdr m RAMDISK =
        off RAMDISK ((load 64 m (off RAMDISK Elfhdr.phoff)).toNat + Proghdr.size) := by
      rw [← off_off, textPhdr, h.phentsize]
      congr 1
      simp only [off, BitVec.ofNat_toNat, BitVec.setWidth_eq]
    rw [haddr]
    apply span_off_subset
    · unfold Proghdr.size at *
      omega
    · unfold FSSIZE BSIZE at hs
      omega

/-! ## An accepted run -/

def RangeClear (m : Mem) : Prop :=
  Disjoint (kernelRange m) (imageSpan m ∪ bootloaderMem ∪ span sysInfo SysInfo.size)

/-- Everything a run of `start` may write. -/
def startOwn : Set Addr := bootloaderMem ∪ span sysInfo SysInfo.size

theorem imageSpan_disjoint_startOwn (hs : kernelSize m < FSSIZE * BSIZE) :
    Disjoint (imageSpan m) startOwn := by
  refine Set.disjoint_union_right.mpr ⟨imageSpan_disjoint hs, ?_⟩
  refine Disjoint.mono_left (imageSpan_subset hs) (Disjoint.symm ?_)
  exact span_disjoint (by decide) (by decide)

theorem RangeClear.image (h : RangeClear m) : Disjoint (imageSpan m) (kernelRange m) :=
  h.symm.mono_left (Set.subset_union_left.trans Set.subset_union_left)

theorem RangeClear.own (h : RangeClear m) : Disjoint startOwn (kernelRange m) :=
  h.symm.mono_left (Set.union_subset_union_left _ Set.subset_union_right)

theorem verdictOwn_subset {b : Addr} (hb : StackBuf b) : verdictOwn b ⊆ startOwn :=
  Set.union_subset_union (measureOwn_subset hb) hashFields_subset

theorem RangeClear.image_written (hc : RangeClear m) (hs : kernelSize m < FSSIZE * BSIZE) :
    Disjoint (imageSpan m) (startOwn ∪ kernelRange m) :=
  Set.disjoint_union_right.mpr ⟨imageSpan_disjoint_startOwn hs, hc.image⟩

section Accepted
variable (hi : HeadersInside m) (hc : RangeClear m) (hs : kernelSize m < FSSIZE * BSIZE)
include hi hc hs

theorem protected_disjoint_bootRange :
    Disjoint (span sha256Ctx Ctx.size ∪ span sysInfoPtr 8) (bootRange (handover m)) := by
  rw [bootRange_handover hi hs]
  apply hc.own.mono_left
  exact (Set.union_subset ctx_subset sysInfoPtr_subset).trans Set.subset_union_left

theorem isSecureBoot_memory {hart : Fin NCPU} {ok : Bool} {m1 : Mem}
    (h : isSecureBoot hart (handover m) = some (ok, m1)) :
    Frame (startOwn ∪ kernelRange m) m m1 ∧ load 64 m1 sysInfoPtr = sysInfo ∧
      ∀ k < BSIZE * (numBlocks m - 4), m1 (off (segVaddr m) k) = m (off RAMDISK (4 * BSIZE + k)) := by
  have hb := secureBootBuf_stackBuf hart
  have hv := protected_disjoint_bootRange hi hc hs
  have hs' : kernelSize (handover m) < FSSIZE * BSIZE := by rwa [handover_kernelSize]
  have hrange := bootRange_handover hi hs
  obtain ⟨hf, hp⟩ := isSecureBoot_frame (handover_sysInfoPtr m) hv h
  have f0 : Frame startOwn m (handover m) :=
    (handover_frame m).mono (sysInfoPtr_subset.trans Set.subset_union_left)
  refine ⟨?_, hp, ?_⟩
  · rw [hrange] at hf
    exact (f0.mono Set.subset_union_left).trans
      (hf.mono (Set.union_subset_union_left _ (verdictOwn_subset hb)))
  · -- The loop has placed the blocks; the tail and the hashes do not reach the range.
    obtain ⟨m3, h3, rfl⟩ := measureKernel_of_isSecureBoot h
    obtain ⟨m4, m5, m6, h4, -, -, h6, f6, hg⟩ :=
      measureKernel_run hb hs' (Set.disjoint_union_left.mp hv).1
    rw [h3] at h6
    cases h6
    have hload : bootLoadAddr (handover m) = segVaddr m := by
      have hd : Disjoint (imageSpan m) (span sysInfoPtr 8) :=
        (imageSpan_disjoint hs).mono_right sysInfoPtr_subset
      rw [bootLoadAddr_eq_segVaddr (hi.transfer (handover_frame m) hd) hs',
        hi.segVaddr_eq (handover_frame m) hd]
    have hP := verifyBlock_placing hb (numBlocks_lt hs').le (Set.disjoint_union_left.mp hv).1
    obtain ⟨f7, -, -, -⟩ := recordHashes_spec hg
      (measureKernel_sysInfoPtr (handover_sysInfoPtr m) hv h3)
      (hashFields_disjoint.mono_left sysInfoPtr_subset)
    have hown : Disjoint (verifyOwn (secureBootBuf hart)) (kernelRange m) :=
      hc.own.mono_left ((verifyOwn_subset hb).trans Set.subset_union_left)
    have f67 : Frame startOwn m4 (recordHashes m3) := by
      refine (f6.mono ((verifyOwn_subset hb).trans Set.subset_union_left)).trans (f7.mono ?_)
      exact Set.union_subset_union ctx_subset hashFields_subset
    have f03 : Frame bootloaderMem m (prepared (handover m)) :=
      ((handover_frame m).mono sysInfoPtr_subset).trans
        ((prepared_frame (handover m)).mono prepareOwn_subset)
    intro k hk
    rw [hload, handover_numBlocks] at h4 hP
    have hk64 : k < 2 ^ 64 := by
      have := (numBlocks_lt hs).le
      unfold FSSIZE BSIZE at *
      omega
    have hblocks : BSIZE * numBlocks m ≤ kernelSize m := Nat.mul_div_le _ _
    have hdisk : Disjoint (span RAMDISK (BSIZE * numBlocks m)) (loadRange (segVaddr m) (numBlocks m)) :=
      hc.image.mono_left (span_mono _ hblocks)
    have hko : 4 * BSIZE + k < kernelSize m := by unfold BSIZE at *; omega
    rw [f67.byte hc.own.symm hk hk64,
      hP.run_bytes (prepared_absorbed _).inBuffer hown hdisk h4 hk]
    exact f03.byte (imageSpan_disjoint hs) hko (hko.trans (hs.trans (by decide)))

theorem loadKernel_memory {b : Addr} (hb : StackBuf b) {m1 m2 : Mem}
    (hf : Frame (startOwn ∪ kernelRange m) m m1) (hp : load 64 m1 sysInfoPtr = sysInfo)
    (hbytes : ∀ k < BSIZE * (numBlocks m - 4), m1 (off (segVaddr m) k) = m (off RAMDISK (4 * BSIZE + k)))
    (h : loadKernel b m1 = some m2) :
    Frame (startOwn ∪ kernelRange m) m m2 ∧ load 64 m2 sysInfoPtr = sysInfo ∧
      ∀ k < BSIZE * (numBlocks m - 4), m2 (off (segVaddr m) k) = m (off RAMDISK (4 * BSIZE + k)) := by
  have hdw := hc.image_written hs
  have hsize := hi.kernelSize_eq hf hdw
  have hn : kernelSize m / FSSIZE ≤ numBlocks m := div_FSSIZE_le _
  rw [loadKernel_eq, findKernelLoadAddr_eq_segVaddr (hi.transfer hf hdw) (by rwa [hsize]),
    hi.segVaddr_eq hf hdw, hsize] at h
  have f2 := (findKernelLoadAddr_frame .NORMAL m1).trans (findKernelSize_frame .NORMAL _)
  set m1' := (findKernelSize .NORMAL (findKernelLoadAddr .NORMAL m1).2).2 with hm1'
  have hP := loadBlock_placing (v := segVaddr m) hb (hn.trans (numBlocks_lt hs).le)
  obtain ⟨-, f3⟩ := hP.run_frame trivial h
  have hbo : span b Buf.size ⊆ startOwn :=
    (hb.subset_bootStack.trans bootStack_subset).trans Set.subset_union_left
  have hho : headerPtrs ⊆ startOwn := headerPtrs_subset.trans Set.subset_union_left
  have hsub : loadRange (segVaddr m) (kernelSize m / FSSIZE) ⊆ kernelRange m := loadRange_mono _ hn
  have hf' : Frame (startOwn ∪ kernelRange m) m m1' := hf.trans (f2.mono (hho.trans Set.subset_union_left))
  refine ⟨hf'.trans (f3.mono (Set.union_subset_union hbo hsub)), ?_, ?_⟩
  · rw [← hp]
    have hph : Disjoint (span sysInfoPtr 8) headerPtrs := span_disjoint (by decide) (by decide)
    rw [f3.load_eq _ (by norm_num), f2.load_eq hph (by norm_num)]
    refine Set.disjoint_union_right.mpr ⟨hb.disjoint_above (by decide) (by decide), ?_⟩
    exact (hc.own.mono_left (sysInfoPtr_subset.trans Set.subset_union_left)).mono_right hsub
  · intro k hk
    have hk64 : k < 2 ^ 64 := by
      have := (numBlocks_lt hs).le
      unfold FSSIZE BSIZE at *
      omega
    by_cases hlt : k < BSIZE * (kernelSize m / FSSIZE - 4)
    · have hko : 4 * BSIZE + k < kernelSize m := by
        have : BSIZE * numBlocks m ≤ kernelSize m := Nat.mul_div_le _ _
        unfold BSIZE at *
        omega
      have hblocks : BSIZE * (kernelSize m / FSSIZE) ≤ kernelSize m :=
        (Nat.mul_le_mul_left _ hn).trans (Nat.mul_div_le _ _)
      rw [hP.run_bytes trivial ((hc.own.mono_left hbo).mono_right hsub)
        ((hc.image.mono_left (span_mono _ hblocks)).mono_right hsub) h hlt]
      exact hf'.byte hdw hko (hko.trans (hs.trans (by decide)))
    · have hmem : off (segVaddr m) k ∈ kernelRange m := off_mem_span _ hk hk64
      have hout : off (segVaddr m) k ∉ loadRange (segVaddr m) (kernelSize m / FSSIZE) := by
        intro hx
        rw [loadRange, mem_span, off_sub _ _ hk64] at hx
        exact hlt hx
      have hnot : ∀ {t : Set Addr}, t ⊆ startOwn → off (segVaddr m) k ∉ t :=
        fun ht hx => Set.disjoint_left.mp hc.own (ht hx) hmem
      rw [f3 _ (fun hx => hx.elim (hnot hbo) hout), f2 _ (hnot hho)]
      exact hbytes k hk

end Accepted

theorem kernelSize_lt_of_isSecureBoot {hart : Fin NCPU} {m m' : Mem} {ok : Bool}
    (h : isSecureBoot hart (handover m) = some (ok, m')) : kernelSize m < FSSIZE * BSIZE := by
  obtain ⟨m1, h1, -⟩ := measureKernel_of_isSecureBoot h
  have := kernelSize_lt_of_some h1
  rwa [handover_kernelSize] at this

/-- **The memory at kernel entry.** Every whole block of the image behind its first four is at its place,
and nothing else has changed outside the bootloader and the system table. -/
theorem start_jumped_memory {hart : Fin NCPU} {s s' : Machine} {pc : Addr} (hi : HeadersInside s.mem)
    (hc : RangeClear s.mem) (h : start hart s = some (.jumped pc, s')) :
    pc = elfEntry s.mem RAMDISK ∧ Frame (startOwn ∪ kernelRange s.mem) s.mem s'.mem ∧
      ∀ k < BSIZE * (numBlocks s.mem - 4),
        s'.mem (off (segVaddr s.mem) k) = s.mem (off RAMDISK (4 * BSIZE + k)) := by
  obtain ⟨m1, m2, h1, h2, h3⟩ := start_jumped h
  have hs := kernelSize_lt_of_isSecureBoot h1
  obtain ⟨f1, hp1, c1⟩ := isSecureBoot_memory hi hc hs h1
  obtain ⟨f2, hp2, c2⟩ := loadKernel_memory hi hc hs (startBuf_stackBuf hart) f1 hp1 c1 h2
  obtain ⟨hpc, f3, -, -⟩ := enterKernel_spec hp2
  rw [h3] at hpc f3
  have hown : headerPtrs ∪ span sysInfo SysInfo.size ⊆ startOwn :=
    Set.union_subset_union_left _ headerPtrs_subset
  refine ⟨?_, f2.trans (f3.mono (hown.trans Set.subset_union_left)), ?_⟩
  · exact hpc.trans (hi.elfEntry_eq f2 (hc.image_written hs))
  · intro k hk
    have hk64 : k < 2 ^ 64 := by
      have := (numBlocks_lt hs).le
      unfold FSSIZE BSIZE at *
      omega
    rw [← c2 k hk]
    exact f3.byte (hc.own.symm.mono_right hown) hk hk64

/-- **Totality and the decision.** An image that ends before block `FSSIZE` is either rejected or jumped
to, by the comparison of its digest with the trusted hash. -/
theorem start_decides (hart : Fin NCPU) {s : Machine} {T : List Byte} (hl : Linked s.mem T)
    (hi : HeadersInside s.mem) (hc : RangeClear s.mem) (hs : kernelSize s.mem < FSSIZE * BSIZE) :
    if Sha256.digest (bytesAt s.mem RAMDISK (kernelSize s.mem)) = T then
      ∃ pc s', start hart s = some (.jumped pc, s')
    else ∃ s', start hart s = some (.returned, s') := by
  have hv := protected_disjoint_bootRange hi hc hs
  have hs' : kernelSize (handover s.mem) < FSSIZE * BSIZE := by rwa [handover_kernelSize]
  obtain ⟨ok, m1, h1⟩ := isSecureBoot_some (handover_sysInfoPtr s.mem) hart hs' hv
  have hrange := bootRange_handover hi hs
  have hboot : Disjoint bootloaderMem (bootRange (handover s.mem)) := by
    rw [hrange]
    exact hc.own.mono_left Set.subset_union_left
  have hread : ReadFirst (bootLoadAddr (handover s.mem)) (numBlocks (handover s.mem))
      (kernelSize (handover s.mem)) := by
    have himg : Disjoint (span RAMDISK (kernelSize (handover s.mem))) (bootRange (handover s.mem)) := by
      rw [hrange, handover_kernelSize]
      exact hc.image
    have hle : kernelSize (handover s.mem) ≤ 2 ^ 64 := by
      unfold FSSIZE BSIZE at hs'
      omega
    exact readFirst_of_disjoint himg hle (numBlocks_lt hs').le
  obtain ⟨-, -, hok⟩ := isSecureBoot_verdict (handover_sysInfoPtr s.mem) (handover_linked hl) hboot hread h1
  rw [handover_kernelSize, handover_image hs] at hok
  obtain ⟨f1, -, -⟩ := isSecureBoot_memory hi hc hs h1
  have hs1 : kernelSize m1 < FSSIZE * BSIZE := by
    rw [hi.kernelSize_eq f1 (hc.image_written hs)]
    exact hs
  by_cases hd : Sha256.digest (bytesAt s.mem RAMDISK (kernelSize s.mem)) = T
  · rw [if_pos hd]
    rw [hok.mpr hd] at h1
    exact start_of_accepted h1 hs1
  · rw [if_neg hd]
    have hfalse : ok = false := by
      cases ok with
      | true => exact absurd (hok.mp rfl) hd
      | false => rfl
    rw [hfalse] at h1
    exact ⟨_, start_of_rejected h1⟩

end Xv6Boot.Start
