import Xv6Boot.Bootloader.Measure

/-! # The verdict of `is_secure_boot`

The observed and expected hashes go through `sys_info_ptr`, a variable of the bootloader like any other.
`recordHashes_spec` follows the pointer wherever it leads; with the pointer intact the verdict is the
comparison of the image's digest with the trusted hash.
-/

namespace Xv6Boot.Start
open ByteMemory Loop StringC Layout Elf Sha256C

/-! ## Recording and comparing -/

def hashFields (info : Addr) : Set Addr := span (off info SysInfo.expected) 64

theorem expected_subset (info : Addr) : span (off info SysInfo.expected) 32 ⊆ hashFields info :=
  span_mono _ (by norm_num)

theorem observed_subset (info : Addr) : span (off info SysInfo.observed) 32 ⊆ hashFields info := by
  rw [show off info SysInfo.observed = off (off info SysInfo.expected) 32 from
    (off_off info SysInfo.expected 32).symm]
  exact span_off_subset _ (by norm_num) (by norm_num)

theorem sysInfoPtr_disjoint_ctx : Disjoint (span sysInfoPtr 8) (span sha256Ctx Ctx.size) :=
  (span_disjoint (by decide) (by decide)).symm

theorem recordHashes_spec {m : Mem} (hg : InBuffer m sha256Ctx) {info : Addr}
    (hi : load 64 m sysInfoPtr = info) (hp : Disjoint (span sysInfoPtr 8) (hashFields info)) :
    Frame (span sha256Ctx Ctx.size ∪ hashFields info) m (recordHashes m) ∧
      load 64 (recordHashes m) sysInfoPtr = info ∧
      bytesAt (recordHashes m) (off info SysInfo.observed) 32 =
        bytesAt (sha256Final m sha256Ctx (off info SysInfo.observed)) (off info SysInfo.observed) 32 ∧
      bytesAt (recordHashes m) (off info SysInfo.expected) 32 =
        bytesAt (sha256Final m sha256Ctx (off info SysInfo.observed)) trustedKernelHash 32 := by
  have f1 := sha256Final_frame hg (off info SysInfo.observed)
  set m1 := sha256Final m sha256Ctx (off info SysInfo.observed) with h1
  have hp1 : load 64 m1 sysInfoPtr = info := by
    rw [← hi]
    apply f1.load_eq _ (by norm_num)
    exact Set.disjoint_union_right.mpr
      ⟨sysInfoPtr_disjoint_ctx, hp.mono_right (observed_subset info)⟩
  have hdef : recordHashes m = memcpy m1 (off info SysInfo.expected) trustedKernelHash 32 := by
    unfold recordHashes
    rw [hi]
    dsimp only
    rw [← h1, hp1]
  have f2 : Frame (span (off info SysInfo.expected) 32) m1 (recordHashes m) := by
    rw [hdef]
    exact memmove_frame m1 _ _ (by norm_num) (by decide)
  refine ⟨?_, ?_, ?_, ?_⟩
  · refine (f1.mono ?_).trans (f2.mono ?_)
    · exact Set.union_subset_union_right _ (observed_subset info)
    · exact (expected_subset info).trans Set.subset_union_right
  · rw [← hp1]
    exact f2.load_eq (hp.mono_right (expected_subset info)) (by norm_num)
  · apply bytesAt_congr
    intro k hk
    rw [off_off]
    exact f2.byte_off (.inl (by simp only [SysInfo.expected, SysInfo.observed]; omega)) (by decide)
      (by simp only [SysInfo.observed]; omega)
  · apply bytesAt_congr
    intro k hk
    rw [hdef]
    exact memmove_off m1 _ _ (by norm_num) (by decide) hk

theorem memcmp_eq_zero_iff (m : Mem) (a b : Addr) (n : ℕ) : memcmp m a b n = 0 ↔ bytesAt m a n = bytesAt m b n := by
  rw [memcmp_eq_zero]
  constructor
  · exact bytesAt_congr
  · intro h k hk
    rw [← bytesAt_getD m a hk 0, h, bytesAt_getD m b hk 0]

theorem isSecureBoot_of_measure {hart : Fin NCPU} {m m1 : Mem} {info : Addr}
    (h : measureKernel (secureBootBuf hart) m = some m1) (hp : load 64 (recordHashes m1) sysInfoPtr = info) :
    isSecureBoot hart m = some (decide (bytesAt (recordHashes m1) (off info SysInfo.observed) 32 =
      bytesAt (recordHashes m1) (off info SysInfo.expected) 32), recordHashes m1) := by
  unfold isSecureBoot
  rw [h]
  simp only [Option.bind_eq_bind, Option.bind_some, hp, memcmp_eq_zero_iff]

variable {ok : Bool} {m' : Mem}

theorem measureKernel_of_isSecureBoot {hart : Fin NCPU} {m : Mem} (h : isSecureBoot hart m = some (ok, m')) :
    ∃ m1, measureKernel (secureBootBuf hart) m = some m1 ∧ recordHashes m1 = m' := by
  unfold isSecureBoot at h
  cases h1 : measureKernel (secureBootBuf hart) m with
  | none =>
    rw [h1] at h
    cases h
  | some m1 =>
    rw [h1] at h
    simp only [Option.bind_eq_bind, Option.bind_some, Option.some.injEq, Prod.mk.injEq] at h
    exact ⟨m1, rfl, h.2⟩

/-! ## With the pointer intact -/

/-- What the linker put into the bootloader: the round constants and the trusted hash `T`. -/
structure Linked (m : Mem) (T : List Byte) : Prop where
  k_loaded : KLoaded m
  trusted : bytesAt m trustedKernelHash 32 = T

theorem hashFields_disjoint : Disjoint bootloaderMem (hashFields sysInfo) :=
  span_disjoint (by decide) (by decide)

theorem sysInfoPtr_subset : span sysInfoPtr 8 ⊆ bootloaderMem :=
  span_subset_of_toNat (by decide) (by decide) (by decide)

theorem trusted_subset : span trustedKernelHash 32 ⊆ bootloaderMem :=
  span_subset_of_toNat (by decide) (by decide) (by decide)

theorem sysInfoPtr_disjoint_own {b : Addr} (hb : StackBuf b) : Disjoint (span sysInfoPtr 8) (measureOwn b) := by
  unfold measureOwn verifyOwn
  rw [Set.disjoint_union_right, Set.disjoint_union_right]
  exact ⟨⟨hb.disjoint_above (by decide) (by decide), sysInfoPtr_disjoint_ctx⟩,
    span_disjoint (by decide) (by decide)⟩

theorem trusted_disjoint_own {b : Addr} (hb : StackBuf b) : Disjoint (span trustedKernelHash 32) (measureOwn b) := by
  unfold measureOwn verifyOwn
  rw [Set.disjoint_union_right, Set.disjoint_union_right]
  exact ⟨⟨hb.disjoint_below (by decide), span_disjoint (by decide) (by decide)⟩,
    span_disjoint (by decide) (by decide)⟩

/-- Outside these addresses and the load range, `is_secure_boot` changes nothing. -/
def verdictOwn (b : Addr) : Set Addr := measureOwn b ∪ hashFields sysInfo

variable {hart : Fin NCPU} {m : Mem} (hp : load 64 m sysInfoPtr = sysInfo)
include hp

theorem measureKernel_sysInfoPtr {m1 : Mem}
    (hv : Disjoint (span sha256Ctx Ctx.size ∪ span sysInfoPtr 8) (bootRange m))
    (h : measureKernel (secureBootBuf hart) m = some m1) : load 64 m1 sysInfoPtr = sysInfo := by
  have hb := secureBootBuf_stackBuf hart
  rw [Set.disjoint_union_left] at hv
  rw [← hp]
  apply (measureKernel_frame hb h hv.1).2.load_eq _ (by norm_num)
  exact Set.disjoint_union_right.mpr ⟨sysInfoPtr_disjoint_own hb, hv.2⟩

theorem isSecureBoot_frame (hv : Disjoint (span sha256Ctx Ctx.size ∪ span sysInfoPtr 8) (bootRange m))
    (h : isSecureBoot hart m = some (ok, m')) :
    Frame (verdictOwn (secureBootBuf hart) ∪ bootRange m) m m' ∧ load 64 m' sysInfoPtr = sysInfo := by
  have hb := secureBootBuf_stackBuf hart
  obtain ⟨m1, h1, rfl⟩ := measureKernel_of_isSecureBoot h
  obtain ⟨hg, f1⟩ := measureKernel_frame hb h1 (Set.disjoint_union_left.mp hv).1
  obtain ⟨f2, hp2, -, -⟩ := recordHashes_spec hg (measureKernel_sysInfoPtr hp hv h1)
    (hashFields_disjoint.mono_left sysInfoPtr_subset)
  refine ⟨(f1.mono ?_).trans (f2.mono ?_), hp2⟩
  · exact Set.union_subset_union_left _ Set.subset_union_left
  · refine Set.union_subset ?_ ?_
    · exact (Set.subset_union_right.trans (verifyOwn_subset_measureOwn _)).trans
        (Set.subset_union_left.trans Set.subset_union_left)
    · exact Set.subset_union_right.trans Set.subset_union_left

theorem isSecureBoot_some (hart : Fin NCPU) (hs : kernelSize m < FSSIZE * BSIZE)
    (hv : Disjoint (span sha256Ctx Ctx.size ∪ span sysInfoPtr 8) (bootRange m)) :
    ∃ ok m', isSecureBoot hart m = some (ok, m') := by
  have hb := secureBootBuf_stackBuf hart
  have hcv := (Set.disjoint_union_left.mp hv).1
  obtain ⟨-, -, m1, -, -, -, h1, -, hg⟩ := measureKernel_run hb hs hcv
  obtain ⟨-, hp2, -, -⟩ := recordHashes_spec hg (measureKernel_sysInfoPtr hp hv h1)
    (hashFields_disjoint.mono_left sysInfoPtr_subset)
  exact ⟨_, _, isSecureBoot_of_measure h1 hp2⟩

/-- **The verdict.** Away from the bootloader, and with no byte overwritten before it is read, the
recorded hashes are the digest of the image and the trusted hash, and the verdict is their equality. -/
theorem isSecureBoot_verdict {T : List Byte} (hl : Linked m T) (hv : Disjoint bootloaderMem (bootRange m))
    (hr : ReadFirst (bootLoadAddr m) (numBlocks m) (kernelSize m)) (h : isSecureBoot hart m = some (ok, m')) :
    bytesAt m' (off sysInfo SysInfo.observed) 32 = Sha256.digest (bytesAt m RAMDISK (kernelSize m)) ∧
      bytesAt m' (off sysInfo SysInfo.expected) 32 = T ∧
      (ok = true ↔ Sha256.digest (bytesAt m RAMDISK (kernelSize m)) = T) := by
  have hb := secureBootBuf_stackBuf hart
  have hv' : Disjoint (span sha256Ctx Ctx.size ∪ span sysInfoPtr 8) (bootRange m) :=
    hv.mono_left (Set.union_subset ctx_subset sysInfoPtr_subset)
  obtain ⟨m1, h1, rfl⟩ := measureKernel_of_isSecureBoot h
  obtain ⟨hg, f1⟩ := measureKernel_frame hb h1 (hv.mono_left ctx_subset)
  have ha := measureKernel_absorb hb hl.k_loaded hv hr h1
  have hk1 : KLoaded m1 := hl.k_loaded.frame f1
    (Set.disjoint_union_right.mpr ⟨kTable_disjoint_own hb, hv.mono_left kTable_subset⟩)
  obtain ⟨-, hp2, hobs, hexp⟩ := recordHashes_spec hg (measureKernel_sysInfoPtr hp hv' h1)
    (hashFields_disjoint.mono_left sysInfoPtr_subset)
  have hsize : 8 * (bytesAt m RAMDISK (kernelSize m)).length < 2 ^ 64 := by
    have hs := kernelSize_lt_of_some h1
    rw [bytesAt_length]
    unfold FSSIZE BSIZE at hs
    omega
  have hf := sha256Final_spec kTable_disjoint_ctx
    ((hashFields_disjoint.mono_left ctx_subset).mono_right (observed_subset sysInfo)) hk1 ha hsize
  rw [hf] at hobs
  have htrust : bytesAt (sha256Final m1 sha256Ctx (off sysInfo SysInfo.observed)) trustedKernelHash 32 =
      T := by
    have f2 := sha256Final_frame hg (off sysInfo SysInfo.observed)
    rw [← hl.trusted]
    apply bytesAt_congr
    intro k hk
    rw [f2.byte (n := 32) _ hk (by omega), f1.byte (n := 32) _ hk (by omega)]
    · exact Set.disjoint_union_right.mpr ⟨trusted_disjoint_own hb, hv.mono_left trusted_subset⟩
    · exact Set.disjoint_union_right.mpr ⟨span_disjoint (by decide) (by decide),
        (hashFields_disjoint.mono_left trusted_subset).mono_right (observed_subset sysInfo)⟩
  rw [htrust] at hexp
  refine ⟨hobs, hexp, ?_⟩
  rw [isSecureBoot_of_measure h1 hp2, Option.some.injEq, Prod.mk.injEq] at h
  rw [← h.1, decide_eq_true_iff, hobs, hexp]

end Xv6Boot.Start
