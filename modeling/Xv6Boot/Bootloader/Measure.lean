import Xv6Boot.Bootloader.Blocks

/-! # Measuring the image

What `is_secure_boot` leaves behind, as a function of the memory it starts from: it returns exactly if
the image ends before block `FSSIZE`; away from its own variables and the load range it changes only the
two hash fields; and as long as no block is placed over the bootloader or over image bytes that are yet
to be read, the observed measurement is the digest of the image as it was found.
-/

namespace Xv6Boot.Start
open ByteMemory Loop StringC Layout Elf Sha256C

/-! ## Size, block count and load address of an image -/

def kernelSize (m : Mem) : ℕ := (findKernelSize .NORMAL m).1.toNat

def numBlocks (m : Mem) : ℕ := kernelSize m / BSIZE

/-- The load address `is_secure_boot` reads. The program header may lie anywhere, so it is read from the
memory of that moment, with the context already initialised. -/
def bootLoadAddr (m : Mem) : Addr := (findKernelLoadAddr .NORMAL (sha256Init m sha256Ctx)).1

theorem kernelSize_eq (m : Mem) : kernelSize m = (elfSize m RAMDISK).toNat :=
  congrArg BitVec.toNat (findKernelSize_eq .NORMAL m)

/-- `[vaddr, vaddr + 1024 * (size / 1024 - 4))` -/
def bootRange (m : Mem) : Set Addr := loadRange (bootLoadAddr m) (numBlocks m)

def imageSpan (m : Mem) : Set Addr := span RAMDISK (kernelSize m)

def prepared (m : Mem) : Mem :=
  (findKernelSize .NORMAL (findKernelLoadAddr .NORMAL (sha256Init m sha256Ctx)).2).2

def prepareOwn : Set Addr := span sha256Ctx Ctx.size ∪ headerPtrs

theorem prepareOwn_subset : prepareOwn ⊆ bootloaderMem := Set.union_subset ctx_subset headerPtrs_subset

theorem prepared_frame (m : Mem) : Frame prepareOwn m (prepared m) := by
  have f1 := (sha256Init_spec m sha256Ctx).1
  have f2 := findKernelLoadAddr_frame .NORMAL (sha256Init m sha256Ctx)
  have f3 := findKernelSize_frame .NORMAL (findKernelLoadAddr .NORMAL (sha256Init m sha256Ctx)).2
  exact f1.trans_union (f2.trans f3)

theorem ctx_disjoint_headerPtrs : Disjoint (span sha256Ctx Ctx.size) headerPtrs :=
  span_disjoint (by decide) (by decide)

theorem prepared_absorbed (m : Mem) : Absorbed (prepared m) sha256Ctx [] := by
  have f2 := findKernelLoadAddr_frame .NORMAL (sha256Init m sha256Ctx)
  have f3 := findKernelSize_frame .NORMAL (findKernelLoadAddr .NORMAL (sha256Init m sha256Ctx)).2
  exact (sha256Init_spec m sha256Ctx).2.frame (f2.trans f3) ctx_disjoint_headerPtrs

theorem headerSpan_subset : span RAMDISK Elfhdr.size ⊆ diskSpan .NORMAL := span_mono _ (by decide)

theorem header_disjoint_bootloader : Disjoint (span RAMDISK Elfhdr.size) bootloaderMem :=
  (diskSpan_disjoint .NORMAL).mono_left headerSpan_subset

theorem prepared_size (m : Mem) :
    (findKernelSize .NORMAL (findKernelLoadAddr .NORMAL (sha256Init m sha256Ctx)).2).1.toNat =
      kernelSize m := by
  have f1 := (sha256Init_spec m sha256Ctx).1
  have f2 := findKernelLoadAddr_frame .NORMAL (sha256Init m sha256Ctx)
  rw [kernelSize_eq, findKernelSize_eq]
  exact congrArg BitVec.toNat
    (elfSize_frame (f1.trans_union f2) (header_disjoint_bootloader.mono_right prepareOwn_subset))

theorem measureKernel_eq (b : Addr) (m : Mem) : measureKernel b m =
    (forLoopM (verifyBlock b (bootLoadAddr m)) 0 (numBlocks m) (prepared m)).bind fun m1 =>
      (kernelCopy .NORMAL b (store m1 (off b Buf.blockno) (BitVec.ofNat 32 (numBlocks m)))).bind fun m2 =>
        some (sha256Update m2 sha256Ctx (off b Buf.data) (kernelSize m - BSIZE * numBlocks m)) := by
  unfold numBlocks
  rw [← prepared_size]
  rfl

/-! ## Returning -/

variable {m m' : Mem} {b v : Addr} {n : ℕ}

theorem numBlocks_lt (h : kernelSize m < FSSIZE * BSIZE) : numBlocks m < FSSIZE :=
  Nat.div_lt_of_lt_mul (by rwa [Nat.mul_comm])

theorem measureKernel_panic (b : Addr) (h : FSSIZE * BSIZE ≤ kernelSize m) : measureKernel b m = none := by
  have hn : FSSIZE ≤ numBlocks m := (Nat.le_div_iff_mul_le (by decide)).mpr h
  rw [measureKernel_eq]
  by_cases he : numBlocks m = FSSIZE
  · cases forLoopM (verifyBlock b (bootLoadAddr m)) 0 (numBlocks m) (prepared m) with
    | none => rfl
    | some m1 =>
      rw [Option.bind_some, he, kernelCopy_panic .NORMAL b m1 (by decide)]
      rfl
  · rw [forLoopM_eq_none (verifyBlock b (bootLoadAddr m)) (Nat.zero_le FSSIZE) (by omega)]
    · rfl
    · intro m1
      rw [verifyBlock_eq, kernelCopy_panic .NORMAL b m1 (by decide)]
      rfl

theorem isSecureBoot_panic (hart : Fin NCPU) (h : FSSIZE * BSIZE ≤ kernelSize m) : isSecureBoot hart m = none := by
  unfold isSecureBoot
  rw [measureKernel_panic _ h]
  rfl

theorem kernelSize_lt_of_some (h : measureKernel b m = some m') : kernelSize m < FSSIZE * BSIZE := by
  by_contra hn
  rw [measureKernel_panic b (Nat.not_lt.mp hn)] at h
  cases h

theorem measureKernel_run (hb : StackBuf b) (hs : kernelSize m < FSSIZE * BSIZE)
    (hv : Disjoint (span sha256Ctx Ctx.size) (bootRange m)) :
    ∃ m1 m2 m', forLoopM (verifyBlock b (bootLoadAddr m)) 0 (numBlocks m) (prepared m) = some m1 ∧
      kernelCopy .NORMAL b (store m1 (off b Buf.blockno) (BitVec.ofNat 32 (numBlocks m))) = some m2 ∧
      m' = sha256Update m2 sha256Ctx (off b Buf.data) (kernelSize m - BSIZE * numBlocks m) ∧
      measureKernel b m = some m' ∧ Frame (verifyOwn b) m1 m' ∧ InBuffer m' sha256Ctx := by
  have hn := numBlocks_lt hs
  have hP := verifyBlock_placing hb hn.le hv
  have hg := (prepared_absorbed m).inBuffer
  obtain ⟨m1, h1⟩ := hP.run_some hg
  obtain ⟨hg1, -⟩ := hP.run_frame hg h1
  obtain ⟨m2, h2, f2, -⟩ := readBlock_spec hb m1 hn
  have hg2 : InBuffer m2 sha256Ctx := hg1.frame f2 (hb.disjoint_below (by decide))
  obtain ⟨f3, hg3⟩ := sha256Update_frame hg2 (off b Buf.data) (kernelSize m - BSIZE * numBlocks m)
  refine ⟨m1, m2, _, h1, h2, rfl, ?_, f2.trans_union f3, hg3⟩
  rw [measureKernel_eq, h1, Option.bind_some, h2]
  rfl

def measureOwn (b : Addr) : Set Addr := verifyOwn b ∪ headerPtrs

theorem verifyOwn_subset_measureOwn (b : Addr) : verifyOwn b ⊆ measureOwn b := Set.subset_union_left

theorem prepareOwn_subset_measureOwn (b : Addr) : prepareOwn ⊆ measureOwn b :=
  Set.union_subset_union_left _ Set.subset_union_right

theorem measureOwn_subset (hb : StackBuf b) : measureOwn b ⊆ bootloaderMem :=
  Set.union_subset (verifyOwn_subset hb) headerPtrs_subset

theorem measureKernel_frame (hb : StackBuf b) (h : measureKernel b m = some m')
    (hv : Disjoint (span sha256Ctx Ctx.size) (bootRange m)) :
    InBuffer m' sha256Ctx ∧ Frame (measureOwn b ∪ bootRange m) m m' := by
  have hs := kernelSize_lt_of_some h
  obtain ⟨m1, m2, m3, h1, -, -, h3, f3, hg⟩ := measureKernel_run hb hs hv
  rw [h] at h3
  cases h3
  have hP := verifyBlock_placing hb (numBlocks_lt hs).le hv
  obtain ⟨-, f1⟩ := hP.run_frame (prepared_absorbed m).inBuffer h1
  refine ⟨hg, ?_⟩
  refine (((prepared_frame m).mono ?_).trans (f1.mono ?_)).trans (f3.mono ?_)
  · exact (prepareOwn_subset_measureOwn b).trans Set.subset_union_left
  · exact Set.union_subset_union_left _ (verifyOwn_subset_measureOwn b)
  · exact (verifyOwn_subset_measureOwn b).trans Set.subset_union_left

/-! ## The digest -/

def ReadFirst (v : Addr) (n size : ℕ) : Prop :=
  ∀ k < BSIZE * (n - 4), ∀ o < size, off v k = off RAMDISK o → o < BSIZE * (k / BSIZE + 5)

theorem readFirst_of_disjoint {size : ℕ} (h : Disjoint (span RAMDISK size) (loadRange v n)) (hs : size ≤ 2 ^ 64)
    (hn : n ≤ FSSIZE) : ReadFirst v n size := by
  intro k hk o ho he
  have hk' : k < 2 ^ 64 := by unfold FSSIZE BSIZE at *; omega
  exact absurd (he ▸ off_mem_span v hk hk') (Set.disjoint_left.mp h (off_mem_span _ ho (by omega)))

theorem ReadFirst.unread {size : ℕ} (h : ReadFirst v n size) {own : Set Addr} (hown : Disjoint (diskSpan .NORMAL) own)
    {i : ℕ} (hi : i ≤ n) (hf : Frame (own ∪ loadRange v i) m m') {o : ℕ} (hlo : BSIZE * i ≤ o) (ho : o < size)
    (hd : o < FSSIZE * BSIZE) : m' (off RAMDISK o) = m (off RAMDISK o) := by
  apply hf
  rintro (hx | hx)
  · exact Set.disjoint_left.mp hown (off_mem_span _ hd (hd.trans (by decide))) hx
  · obtain ⟨k, hk, -, he⟩ := exists_off hx
    have := h k (hk.trans_le (Nat.mul_le_mul_left _ (by omega))) o ho he.symm
    unfold BSIZE at *
    omega

theorem kTable_subset : span kTable 256 ⊆ bootloaderMem :=
  span_subset_of_toNat (by decide) (by decide) (by decide)

theorem kTable_disjoint_ctx : Disjoint (span kTable 256) (span sha256Ctx Ctx.size) :=
  span_disjoint (by decide) (by decide)

theorem kTable_disjoint_own (hb : StackBuf b) : Disjoint (span kTable 256) (measureOwn b) := by
  unfold measureOwn verifyOwn
  rw [Set.disjoint_union_right, Set.disjoint_union_right]
  exact ⟨⟨hb.disjoint_below (by decide), kTable_disjoint_ctx⟩, span_disjoint (by decide) (by decide)⟩

theorem bufData_subset (b : Addr) (hn : n ≤ BSIZE) : span (off b Buf.data) n ⊆ span b Buf.size :=
  (span_mono _ hn).trans (span_off_subset b (by decide) (by decide))

theorem verifyBlock_absorb (hb : StackBuf b) {i : ℕ} (hi : i < FSSIZE) (hv : Disjoint bootloaderMem (stores v i))
    {p : List Byte} (hk : KLoaded m) (ha : Absorbed m sha256Ctx p) (h : verifyBlock b v i m = some m') :
    Absorbed m' sha256Ctx (p ++ bytesAt m (off RAMDISK (BSIZE * i)) BSIZE) := by
  obtain ⟨m1, h1, f1, c1⟩ := readBlock_spec hb m hi
  have f2 := placeBlock_frame hb v i m1
  rw [verifyBlock_eq, h1, Option.bind_some, Option.some.injEq] at h
  subst h
  have hcb : Disjoint (span sha256Ctx Ctx.size) (span b Buf.size) := hb.disjoint_below (by decide)
  have hbuf : span b Buf.size ⊆ bootloaderMem := hb.subset_bootStack.trans bootStack_subset
  have hk2 : KLoaded (placeBlock b v i m1) :=
    (hk.frame f1 (hb.disjoint_below (by decide))).frame f2 (hv.mono_left kTable_subset)
  have ha2 : Absorbed (placeBlock b v i m1) sha256Ctx p :=
    (ha.frame f1 hcb).frame f2 (hv.mono_left ctx_subset)
  have hdata : bytesAt (placeBlock b v i m1) (off b Buf.data) BSIZE =
      bytesAt m (off RAMDISK (BSIZE * i)) BSIZE := by
    apply bytesAt_congr
    intro k hk
    rw [f2.byte (hv.mono_left ((bufData_subset b le_rfl).trans hbuf)) hk (hk.trans (by decide)),
      off_off, off_off, c1 k hk]
  have hdc := hcb.symm.mono_left (bufData_subset b le_rfl)
  rw [← hdata]
  exact sha256Update_spec kTable_disjoint_ctx hk2 ha2 (by norm_num [BSIZE]) hdc

theorem measureKernel_absorb (hb : StackBuf b) (hk : KLoaded m) (hv : Disjoint bootloaderMem (bootRange m))
    (hr : ReadFirst (bootLoadAddr m) (numBlocks m) (kernelSize m)) (h : measureKernel b m = some m') :
    Absorbed m' sha256Ctx (bytesAt m RAMDISK (kernelSize m)) := by
  have hs := kernelSize_lt_of_some h
  have hn := numBlocks_lt hs
  have hcv := hv.mono_left ctx_subset
  obtain ⟨m1, m2, m3, h1, h2, h3, h4, -, -⟩ := measureKernel_run hb hs hcv
  rw [h] at h4
  cases h4
  set v := bootLoadAddr m with hvdef
  set n := numBlocks m with hndef
  have hP := verifyBlock_placing hb hn.le hcv
  have hown : Disjoint (diskSpan .NORMAL) (measureOwn b) :=
    (diskSpan_disjoint .NORMAL).mono_right (measureOwn_subset hb)
  have f0 : Frame (measureOwn b) m (prepared m) := (prepared_frame m).mono (prepareOwn_subset_measureOwn b)
  have hkv : Disjoint (span kTable 256) (measureOwn b ∪ loadRange v n) :=
    Set.disjoint_union_right.mpr ⟨kTable_disjoint_own hb, hv.mono_left kTable_subset⟩
  have hstep := forLoopM_inv (verifyBlock b v)
    (fun i mi => Frame (measureOwn b ∪ loadRange v i) m mi ∧
      Absorbed mi sha256Ctx (bytesAt m RAMDISK (BSIZE * i))) 0 n h1
    ⟨f0.mono Set.subset_union_left, prepared_absorbed m⟩ (by
      rintro i mi mi' _ hi ⟨hf, ha⟩ hbody
      rw [Nat.zero_add] at hi
      obtain ⟨-, f, -⟩ := hP.of_some hi ha.inBuffer hbody
      have hki : KLoaded mi := hk.frame hf
        (hkv.mono_right (Set.union_subset_union_right _ (loadRange_mono v hi.le)))
      refine ⟨(hf.mono ?_).trans (f.mono ?_), ?_⟩
      · exact Set.union_subset_union_right _ (loadRange_mono v (Nat.le_succ i))
      · exact Set.union_subset_union (verifyOwn_subset_measureOwn b)
          (stores_subset v (Nat.lt_succ_self i) (hi.trans hn))
      · have hblock : bytesAt mi (off RAMDISK (BSIZE * i)) BSIZE =
            bytesAt m (off RAMDISK (BSIZE * i)) BSIZE := by
          apply bytesAt_congr
          intro k hk
          have hle : BSIZE * n ≤ kernelSize m := Nat.mul_div_le _ _
          have ho : BSIZE * i + k < kernelSize m := by unfold BSIZE at *; omega
          rw [off_off]
          exact hr.unread hown hi.le hf (Nat.le_add_right _ _) ho (ho.trans hs)
        rw [Nat.mul_succ, bytesAt_add, ← hblock]
        exact verifyBlock_absorb hb (hi.trans hn) (hv.mono_right (stores_subset v hi hn.le)) hki ha hbody)
  rw [Nat.zero_add] at hstep
  obtain ⟨hf1, ha1⟩ := hstep
  -- The tail block is copied whole, only its first bytes are hashed.
  obtain ⟨m2', h2', f2, c2⟩ := readBlock_spec hb m1 hn
  rw [h2] at h2'
  cases h2'
  have hcb : Disjoint (span sha256Ctx Ctx.size) (span b Buf.size) := hb.disjoint_below (by decide)
  have hrem : kernelSize m - BSIZE * n < BSIZE := by
    rw [hndef, numBlocks, ← Nat.mod_eq_sub]
    exact Nat.mod_lt _ (by decide)
  have hle : BSIZE * n ≤ kernelSize m := Nat.mul_div_le _ _
  have htail : bytesAt m2 (off b Buf.data) (kernelSize m - BSIZE * n) =
      bytesAt m (off RAMDISK (BSIZE * n)) (kernelSize m - BSIZE * n) := by
    apply bytesAt_congr
    intro k hk
    have ho : BSIZE * n + k < kernelSize m := by omega
    rw [off_off, off_off, c2 k (by omega)]
    exact hr.unread hown le_rfl hf1 (Nat.le_add_right _ _) ho (ho.trans hs)
  have hsplit : bytesAt m RAMDISK (kernelSize m) = bytesAt m RAMDISK (BSIZE * n) ++
      bytesAt m (off RAMDISK (BSIZE * n)) (kernelSize m - BSIZE * n) := by
    rw [← bytesAt_add, Nat.add_sub_of_le hle]
  rw [hsplit, ← htail, h3]
  exact sha256Update_spec kTable_disjoint_ctx
    ((hk.frame hf1 hkv).frame f2 (hb.disjoint_below (by decide))) (ha1.frame f2 hcb)
    (hrem.trans (by decide)) (hcb.symm.mono_left (bufData_subset b hrem.le))

end Xv6Boot.Start
