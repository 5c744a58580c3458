import Xv6Boot.Bootloader.Start
import Xv6Boot.Bootloader.Sha256Final

/-! # What the block loops do

`kernel_copy` moves one block of the disk into the buffer, and both loops of `start.c` move the buffer
on to the load address. A loop is described by one step lemma (`Placing`): where an iteration may write,
and which bytes it leaves at its own place in the load range. The run lemmas follow for any such loop.
-/

namespace Xv6Boot.Start
open ByteMemory Loop StringC Layout Elf Sha256C

/-! ## Regions -/

def StackBuf (b : Addr) : Prop :=
  blStack.toNat ≤ b.toNat ∧ b.toNat + Buf.size ≤ blStack.toNat + STSIZE * NCPU

theorem secureBootBuf_stackBuf (hart : Fin NCPU) : StackBuf (secureBootBuf hart) := by
  revert hart
  unfold StackBuf
  decide

theorem startBuf_stackBuf (hart : Fin NCPU) : StackBuf (startBuf hart) := by
  revert hart
  unfold StackBuf
  decide

variable {b : Addr} {m' : Mem} {i k : ℕ}

theorem StackBuf.toNat_lt (h : StackBuf b) : b.toNat + Buf.size ≤ 0x80008c90 := h.2

theorem StackBuf.le_toNat (h : StackBuf b) : 0x80000c90 ≤ b.toNat := h.1

theorem StackBuf.subset_bootStack (h : StackBuf b) : span b Buf.size ⊆ bootStack :=
  span_subset_of_toNat h.1 h.2 (h.toNat_lt.trans (by norm_num))

theorem bootStack_subset : bootStack ⊆ bootloaderMem :=
  span_subset_of_toNat (by decide) (by decide) (by decide)

variable {n : ℕ} {blockno : BitVec 32}

theorem StackBuf.disjoint_below {a : Addr} (h : StackBuf b) (ha : a.toNat + n ≤ 0x80000c90) :
    Disjoint (span a n) (span b Buf.size) :=
  span_disjoint (ha.trans h.le_toNat) (h.toNat_lt.trans (by norm_num))

theorem StackBuf.disjoint_above {a : Addr} (h : StackBuf b) (ha : 0x80008c90 ≤ a.toNat)
    (hn : a.toNat + n ≤ 2 ^ 64) : Disjoint (span a n) (span b Buf.size) :=
  (span_disjoint (h.toNat_lt.trans ha) hn).symm

/-- The blocks `kernel_copy` agrees to read. -/
def diskSpan (ktype : Kernel) : Set Addr := span ktype.disk (FSSIZE * BSIZE)

theorem diskSpan_disjoint (ktype : Kernel) : Disjoint (diskSpan ktype) bootloaderMem := by
  cases ktype <;> exact (span_disjoint (by decide) (by decide)).symm

theorem disk_byte {m : Mem} {s : Set Addr} (hf : Frame s m m') (hd : Disjoint (diskSpan .NORMAL) s) {o : ℕ}
    (ho : o < FSSIZE * BSIZE) : m' (off RAMDISK o) = m (off RAMDISK o) :=
  hf.byte hd ho (ho.trans (by decide))

theorem StackBuf.disjoint_disk (h : StackBuf b) (ktype : Kernel) : Disjoint (diskSpan ktype) (span b Buf.size) :=
  (diskSpan_disjoint ktype).mono_right (h.subset_bootStack.trans bootStack_subset)

/-! ## `kernel_copy` -/

theorem kernelCopy_panic (ktype : Kernel) (b : Addr) (m : Mem)
    (h : FSSIZE ≤ blockno.toNat) : kernelCopy ktype b (store m (off b Buf.blockno) blockno) = none := by
  unfold kernelCopy
  rw [load_store32, if_pos h]

theorem diskaddr_eq (ktype : Kernel) (h : blockno.toNat < FSSIZE) :
    ktype.disk + (blockno * BitVec.ofNat 32 BSIZE).setWidth 64 = off ktype.disk (BSIZE * blockno.toNat) := by
  unfold FSSIZE at h
  unfold off BSIZE
  congr 1
  apply BitVec.eq_of_toNat_eq
  simp only [BitVec.toNat_setWidth, BitVec.toNat_mul, BitVec.toNat_ofNat]
  omega

theorem kernelCopy_spec (ktype : Kernel) (hb : StackBuf b) (m : Mem)
    (h : blockno.toNat < FSSIZE) :
    ∃ m', kernelCopy ktype b (store m (off b Buf.blockno) blockno) = some m' ∧
      Frame (span b Buf.size) m m' ∧
      ∀ k < BSIZE, m' (off b (Buf.data + k)) = m (off ktype.disk (BSIZE * blockno.toNat + k)) := by
  set m1 := store m (off b Buf.blockno) blockno with h1
  set src := off ktype.disk (BSIZE * blockno.toNat) with hsrc
  set m2 := memmove m1 (off b Buf.data) src BSIZE with h2
  set m3 := store m2 (off b Buf.valid) 1#32 with h3
  have hdef : kernelCopy ktype b m1 = some m3 := by
    unfold kernelCopy
    rw [h1, load_store32, if_neg (Nat.not_le.mpr h)]
    dsimp only
    rw [diskaddr_eq ktype h]
  have hdisk : ktype.disk.toNat ≤ 0x84500000 := by cases ktype <;> decide
  have hlt : blockno.toNat < 2000 := h
  have hsrcNat : src.toNat + BSIZE < 2 ^ 64 := by
    have hmul : BSIZE * blockno.toNat ≤ 1024 * 1999 := Nat.mul_le_mul_left 1024 (by omega)
    rw [hsrc, off_toNat _ _ (by omega), BSIZE]
    omega
  have f1 : Frame (span (off b Buf.blockno) 4) m m1 := store32_frame m _ _
  have f2 : Frame (span (off b Buf.data) BSIZE) m1 m2 := memmove_frame m1 _ _ (by decide) hsrcNat
  have f3 : Frame (span (off b Buf.valid) 4) m2 m3 := store32_frame m2 _ _
  have g1 : Frame (span b Buf.size) m m1 := f1.mono (span_off_subset b (by decide) (by decide))
  refine ⟨m3, hdef, ?_, ?_⟩
  · exact (g1.trans (f2.mono (span_off_subset b (by decide) (by decide)))).trans
      (f3.mono (span_off_subset b (by decide) (by decide)))
  · intro k hk
    have hk' : k < 1024 := hk
    have hin : BSIZE * blockno.toNat + k < FSSIZE * BSIZE := by
      unfold BSIZE FSSIZE
      omega
    calc m3 (off b (Buf.data + k)) = m2 (off b (Buf.data + k)) :=
          f3.byte_off (.inl (by simp only [Buf.valid, Buf.data]; omega)) (by decide)
            (by simp only [Buf.data]; omega)
      _ = m1 (off src k) := by rw [← off_off, h2, memmove_off m1 _ _ (by decide) hsrcNat hk]
      _ = m1 (off ktype.disk (BSIZE * blockno.toNat + k)) := by rw [hsrc, off_off]
      _ = m (off ktype.disk (BSIZE * blockno.toNat + k)) :=
          g1.byte (hb.disjoint_disk ktype) hin (hin.trans (by decide))

theorem readBlock_spec (hb : StackBuf b) (m : Mem) (hi : i < FSSIZE) :
    ∃ m', kernelCopy .NORMAL b (store m (off b Buf.blockno) (BitVec.ofNat 32 i)) = some m' ∧
      Frame (span b Buf.size) m m' ∧
      ∀ k < BSIZE, m' (off b (Buf.data + k)) = m (off RAMDISK (BSIZE * i + k)) := by
  have hi' : (BitVec.ofNat 32 i).toNat = i := by
    unfold FSSIZE at hi
    rw [BitVec.toNat_ofNat]
    omega
  have h := kernelCopy_spec .NORMAL hb m (by rw [hi']; exact hi)
  rw [hi'] at h
  exact h

/-! ## One iteration -/

/-- Where iteration `i` puts its block. -/
def stores (v : Addr) (i : ℕ) : Set Addr := if i < 4 then ∅ else span (off v ((i - 4) * BSIZE)) BSIZE

/-- Everything a loop of `n` iterations may store at the load address. -/
def loadRange (v : Addr) (n : ℕ) : Set Addr := span v (BSIZE * (n - 4))

theorem stores_subset (v : Addr) (hi : i < n) (hn : n ≤ FSSIZE) : stores v i ⊆ loadRange v n := by
  unfold stores loadRange FSSIZE at *
  by_cases h4 : i < 4
  · rw [if_pos h4]
    exact Set.empty_subset _
  · rw [if_neg h4]
    exact span_off_subset v (by unfold BSIZE; omega) (by unfold BSIZE; omega)

theorem loadRange_mono (v : Addr) (h : i ≤ n) : loadRange v i ⊆ loadRange v n :=
  span_mono v (Nat.mul_le_mul_left _ (by omega))

def placeBlock (b v : Addr) (i : ℕ) (m : Mem) : Mem :=
  if i < 4 then m else memmove m (off v ((i - 4) * BSIZE)) (off b Buf.data) BSIZE

theorem verifyBlock_eq (b v : Addr) (i : ℕ) (m : Mem) : verifyBlock b v i m =
    (kernelCopy .NORMAL b (store m (off b Buf.blockno) (BitVec.ofNat 32 i))).bind fun m1 =>
      some (sha256Update (placeBlock b v i m1) sha256Ctx (off b Buf.data) BSIZE) := by
  unfold verifyBlock placeBlock
  by_cases h4 : i < 4
  · simp only [if_pos h4]
    rfl
  · simp only [if_neg h4]
    rfl

theorem placeBlock_frame (hb : StackBuf b) (v : Addr) (i : ℕ) (m : Mem) :
    Frame (stores v i) m (placeBlock b v i m) := by
  have hbn := hb.toNat_lt
  unfold placeBlock stores
  by_cases h4 : i < 4
  · rw [if_pos h4, if_pos h4]
    exact Frame.refl _ _
  · rw [if_neg h4, if_neg h4]
    apply memmove_frame _ _ _ (by decide)
    rw [off_toNat _ _ (by simp only [Buf.data]; omega)]
    simp only [Buf.data, Buf.size, BSIZE] at hbn ⊢
    omega

theorem placeBlock_off (hb : StackBuf b) (v : Addr) (hi : 4 ≤ i) (m : Mem) (hk : k < BSIZE) :
    placeBlock b v i m (off v (BSIZE * (i - 4) + k)) = m (off b (Buf.data + k)) := by
  have hbn := hb.toNat_lt
  unfold placeBlock
  rw [if_neg (Nat.not_lt.mpr hi), Nat.mul_comm BSIZE, ← off_off v, ← off_off b]
  apply memmove_off _ _ _ (by decide) _ hk
  rw [off_toNat _ _ (by simp only [Buf.data]; omega)]
  simp only [Buf.data, Buf.size, BSIZE] at hbn ⊢
  omega

/-- What the run lemmas need of a loop body: from a good memory it returns to one, it writes only its
own working memory and its place, and there it leaves the disk's bytes. -/
structure Placing (own : Set Addr) (v : Addr) (n : ℕ) (Good : Mem → Prop)
    (body : ℕ → Mem → Option Mem) : Prop where
  bound : n ≤ FSSIZE
  own_disk : Disjoint (diskSpan .NORMAL) own
  step : ∀ i m, i < n → Good m → ∃ m', body i m = some m' ∧ Good m' ∧
    Frame (own ∪ stores v i) m m' ∧
    (4 ≤ i → ∀ k < BSIZE, m' (off v (BSIZE * (i - 4) + k)) = m (off RAMDISK (BSIZE * i + k)))

def verifyOwn (b : Addr) : Set Addr := span b Buf.size ∪ span sha256Ctx Ctx.size

theorem ctx_subset : span sha256Ctx Ctx.size ⊆ bootloaderMem :=
  span_subset_of_toNat (by decide) (by decide) (by decide)

theorem verifyOwn_subset (hb : StackBuf b) : verifyOwn b ⊆ bootloaderMem :=
  Set.union_subset (hb.subset_bootStack.trans bootStack_subset) ctx_subset

theorem verifyBlock_placing {v : Addr} (hb : StackBuf b) (hn : n ≤ FSSIZE)
    (hv : Disjoint (span sha256Ctx Ctx.size) (loadRange v n)) :
    Placing (verifyOwn b) v n (fun m => InBuffer m sha256Ctx) (verifyBlock b v) where
  bound := hn
  own_disk := (diskSpan_disjoint .NORMAL).mono_right (verifyOwn_subset hb)
  step := by
    intro i m hi hg
    obtain ⟨m1, h1, f1, c1⟩ := readBlock_spec hb m (hi.trans_le hn)
    have hcb : Disjoint (span sha256Ctx Ctx.size) (span b Buf.size) := hb.disjoint_below (by decide)
    have hcs : Disjoint (span sha256Ctx Ctx.size) (stores v i) := hv.mono_right (stores_subset v hi hn)
    have f2 := placeBlock_frame hb v i m1
    set m2 := placeBlock b v i m1 with h2
    have g2 : InBuffer m2 sha256Ctx := (hg.frame f1 hcb).frame f2 hcs
    obtain ⟨f3, g3⟩ := sha256Update_frame g2 (off b Buf.data) BSIZE
    refine ⟨_, by rw [verifyBlock_eq, h1]; rfl, g3, ?_, ?_⟩
    · refine ((f1.mono ?_).trans (f2.mono Set.subset_union_right)).trans (f3.mono ?_)
      · exact Set.subset_union_left.trans Set.subset_union_left
      · exact Set.subset_union_right.trans Set.subset_union_left
    · intro h4 k hk
      rw [← c1 k hk, ← placeBlock_off hb v h4 m1 hk]
      apply f3
      intro hx
      have hs : off v (BSIZE * (i - 4) + k) ∈ stores v i := by
        unfold stores
        rw [if_neg (Nat.not_lt.mpr h4), Nat.mul_comm BSIZE, ← off_off]
        exact off_mem_span _ hk (hk.trans (by decide))
      exact Set.disjoint_left.mp hcs hx hs

theorem loadBlock_eq {v : Addr} (h4 : 4 ≤ i) (m : Mem) : loadBlock b v i m =
    (kernelCopy .NORMAL b (store m (off b Buf.blockno) (BitVec.ofNat 32 i))).bind fun m1 =>
      some (placeBlock b v i m1) := by
  unfold loadBlock placeBlock
  simp only [if_neg (Nat.not_lt.mpr h4)]
  rfl

theorem loadBlock_placing {v : Addr} (hb : StackBuf b) (hn : n ≤ FSSIZE) :
    Placing (span b Buf.size) v n (fun _ => True) (loadBlock b v) where
  bound := hn
  own_disk := hb.disjoint_disk .NORMAL
  step := by
    intro i m hi _
    by_cases h4 : i < 4
    · refine ⟨m, by rw [loadBlock, if_pos h4], trivial, Frame.refl _ _, fun h => ?_⟩
      omega
    · obtain ⟨m1, h1, f1, c1⟩ := readBlock_spec hb m (hi.trans_le hn)
      refine ⟨_, by rw [loadBlock_eq (Nat.not_lt.mp h4), h1]; rfl, trivial, ?_, ?_⟩
      · exact f1.trans_union (placeBlock_frame hb v i m1)
      · intro h4' k hk
        rw [placeBlock_off hb v h4' m1 hk, c1 k hk]

/-! ## Whole runs -/

theorem off_notMem_stores (v : Addr) (hi : i ≤ FSSIZE) (hk : k < BSIZE * (i - 4)) : off v k ∉ stores v i := by
  unfold stores FSSIZE BSIZE at *
  rw [if_neg (by omega)]
  intro hx
  obtain ⟨j, hj, -, he⟩ := exists_off hx
  rw [off_off] at he
  have := off_injective v (by omega) (by omega) he
  omega

theorem loadRange_succ_cases (hk : k < BSIZE * (i + 1 - 4)) :
    k < BSIZE * (i - 4) ∨ 4 ≤ i ∧ ∃ j < BSIZE, k = BSIZE * (i - 4) + j := by
  by_cases h : k < BSIZE * (i - 4)
  · exact .inl h
  · refine .inr ⟨?_, k - BSIZE * (i - 4), ?_, by omega⟩
    · unfold BSIZE at *
      omega
    · unfold BSIZE at *
      omega

theorem disk_offset {j : ℕ} (h4 : 4 ≤ i) : 4 * BSIZE + (BSIZE * (i - 4) + j) = BSIZE * i + j := by
  unfold BSIZE
  omega

variable {own : Set Addr} {v : Addr} {Good : Mem → Prop} {body : ℕ → Mem → Option Mem}
  (hP : Placing own v n Good body) {m : Mem} (hg : Good m)
include hP

theorem Placing.of_some (hi : i < n) {m : Mem} (hg : Good m) (h : body i m = some m') :
    Good m' ∧ Frame (own ∪ stores v i) m m' ∧
      (4 ≤ i → ∀ k < BSIZE, m' (off v (BSIZE * (i - 4) + k)) = m (off RAMDISK (BSIZE * i + k))) := by
  obtain ⟨m1, h1, hs⟩ := hP.step i m hi hg
  rw [h] at h1
  cases h1
  exact hs

theorem Placing.step_frame (hi : i < n) {m1 m2 : Mem} (hg1 : Good m1) (hf : Frame (own ∪ loadRange v i) m m1)
    (h : body i m1 = some m2) : Frame (own ∪ loadRange v (i + 1)) m m2 := by
  obtain ⟨-, f, -⟩ := hP.of_some hi hg1 h
  refine (hf.mono ?_).trans (f.mono ?_)
  · exact Set.union_subset_union_right _ (loadRange_mono v (Nat.le_succ i))
  · exact Set.union_subset_union_right _ (stores_subset v (Nat.lt_succ_self i) (hi.trans_le hP.bound))

include hg

theorem Placing.run_some : ∃ m', forLoopM body 0 n m = some m' := by
  obtain ⟨m', h, -⟩ := forLoopM_induct body (fun _ m => Good m) 0 n m hg (by
    intro i m _ hi hg
    obtain ⟨m', h, hg', -⟩ := hP.step i m (by omega) hg
    exact ⟨m', h, hg'⟩)
  exact ⟨m', h⟩

theorem Placing.run_frame (h : forLoopM body 0 n m = some m') : Good m' ∧ Frame (own ∪ loadRange v n) m m' := by
  have hr := forLoopM_inv body (fun i m' => Good m' ∧ Frame (own ∪ loadRange v i) m m') 0 n h
    ⟨hg, Frame.refl _ _⟩ (by
      rintro i m1 m2 _ hi ⟨hg1, hf⟩ hb
      exact ⟨(hP.of_some (by omega) hg1 hb).1, hP.step_frame (by omega) hg1 hf hb⟩)
  rw [Nat.zero_add] at hr
  exact hr

/-- **Loading.** Over a range away from the disk and from the working memory, the loop leaves every
whole block behind the headers at its place. -/
theorem Placing.run_bytes (hown : Disjoint own (loadRange v n))
    (hdisk : Disjoint (span RAMDISK (BSIZE * n)) (loadRange v n)) (h : forLoopM body 0 n m = some m')
    (hk : k < BSIZE * (n - 4)) : m' (off v k) = m (off RAMDISK (4 * BSIZE + k)) := by
  have hb := hP.bound
  have hr := forLoopM_inv body (fun i m' => Good m' ∧ Frame (own ∪ loadRange v i) m m' ∧
      ∀ k < BSIZE * (i - 4), m' (off v k) = m (off RAMDISK (4 * BSIZE + k))) 0 n h
    ⟨hg, Frame.refl _ _, fun k hk => absurd hk (by simp)⟩ (by
      rintro i m1 m2 _ hi ⟨hg1, hf, hv⟩ hb'
      rw [Nat.zero_add] at hi
      obtain ⟨hg2, f, c⟩ := hP.of_some hi hg1 hb'
      refine ⟨hg2, hP.step_frame hi hg1 hf hb', ?_⟩
      intro k hk
      have hlt : k < 2 ^ 64 := by unfold FSSIZE BSIZE at *; omega
      rcases loadRange_succ_cases hk with hold | ⟨h4, j, hj, rfl⟩
      · rw [← hv k hold]
        apply f
        rintro (hx | hx)
        · refine Set.disjoint_left.mp hown hx (off_mem_span v ?_ hlt)
          exact hold.trans_le (Nat.mul_le_mul_left _ (by omega))
        · exact off_notMem_stores v (by omega) hold hx
      · rw [c h4 j hj, disk_offset h4]
        have ho : BSIZE * i + j < BSIZE * n := by
          have := Nat.mul_le_mul_left BSIZE (show i + 1 ≤ n from hi)
          rw [Nat.mul_succ] at this
          omega
        have ho' : BSIZE * i + j < FSSIZE * BSIZE := by
          have := Nat.mul_le_mul_left BSIZE hb
          rw [Nat.mul_comm FSSIZE]
          omega
        have hx : off RAMDISK (BSIZE * i + j) ∈ span RAMDISK (BSIZE * n) :=
          off_mem_span _ ho (ho'.trans (by decide))
        apply hf
        rintro (hx' | hx')
        · exact Set.disjoint_left.mp hP.own_disk (off_mem_span _ ho' (ho'.trans (by decide))) hx'
        · exact Set.disjoint_left.mp hdisk hx (loadRange_mono v hi.le hx'))
  rw [Nat.zero_add] at hr
  exact hr.2.2 k hk

end Xv6Boot.Start
