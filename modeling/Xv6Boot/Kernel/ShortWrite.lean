import Xv6Boot.Kernel.FsContent

/-! # Writes that fall short

`copyin` fails at the first page that is not mapped, after it has copied what comes before it; `writei` then leaves
the loop without `log_write`. If bytes of the block have been copied that differ from what was there, the cached block
is neither what is on the disk nor what has been logged, and the file reads differently past the count returned.
-/

namespace Xv6Boot.Kernel.Fs
open Program

variable {sb : Superblock} {s s' : State} {ip : Ip} {D D' : ℕ → Dinode} {F : Set ℕ} {k : ℕ}

/-- `writei` returns, and if it returns less than `n`, the old bytes past what it reports read as before and every
cached block is as on the disk or in the log. -/
def ShortWriteClean (sb : Superblock) (ip : Ip) (src : ℕ → Option Byte) (off n : BitVec 32) (s : State) : Prop :=
  ∃ (r : ℤ) (s' : State), writei sb ip src off n s = .ok (r, s') ∧ (r < n.toNat →
    (∀ k : BitVec 32, off.toNat + r ≤ k.toNat → k < (s.inode ip).d.size →
      ∃ v, readi sb ip (fun _ => true) k 1 s = .ok ((1, [v]), s) ∧
        readi sb ip (fun _ => true) k 1 s' = .ok ((1, [v]), s')) ∧
    s'.cache = s'.store)

theorem readi_byte (hl : Layout sb) (hv : View sb s ip D) (ho : Owned sb s.cache D F)
    (hf : (D (s.inode ip).inum).Filled s.cache) {k : BitVec 32} (hk : k.toNat < (D (s.inode ip).inum).size.toNat) :
    readi sb ip (fun _ => true) k 1 s = .ok ((1, [(D (s.inode ip).inum).byteAt s.cache k.toNat]), s) := by
  have hone : (1 : BitVec 32).toNat = 1 := rfl
  rw [readi_slice hl hv ho hf (by omega), hone]
  rfl

theorem WriteDone.same_bytes {src : ℕ → Option Byte} {off n tot : ℕ} (hl : Layout sb)
    (h : WriteDone sb ip src off n tot tot s s' D D' F) (hv : View sb s ip D) (ho : Owned sb s.cache D F)
    (hf : (D (s.inode ip).inum).Filled s.cache) {k : BitVec 32} (hk : off + tot ≤ k.toNat)
    (hsize : k.toNat < (D (s.inode ip).inum).size.toNat) :
    ∃ v, readi sb ip (fun _ => true) k 1 s = .ok ((1, [v]), s) ∧
      readi sb ip (fun _ => true) k 1 s' = .ok ((1, [v]), s') := by
  have hinum : (s'.inode ip).inum = (s.inode ip).inum := by rw [h.stored.entry, Function.update_self]
  have hsize' : k.toNat < (D' (s'.inode ip).inum).size.toNat := by
    rw [hinum, h.stored.size]
    exact hsize.trans_le (le_max_left _ _)
  refine ⟨_, readi_byte hl hv ho hf hsize, ?_⟩
  rw [readi_byte hl h.view h.owned (hinum ▸ h.stored.filled) hsize', hinum, h.stored.bytes _ (Or.inr hk),
    if_neg (by omega)]

/-- A failed write is clean unless it stops inside a block of which it has changed some bytes: the source can be read
up to a byte of a block that the file has or that there is room for, and one of the bytes before it in that block
differs from what the file holds there. -/
theorem writei_short_clean_iff (hl : Layout sb) (s : State) (ip : Ip) (hlt : (s.inode ip).inum < sb.ninodes)
    (ht : (s.inode ip).d.type ≠ 0) (ho : Owned sb s.cache (s.current sb ip) F) (hf : (s.inode ip).d.Filled s.cache)
    (hsync : s.cache = s.store) (src : ℕ → Option Byte) (off n : BitVec 32) :
    ShortWriteClean sb ip src off n s ↔ ¬ (off ≤ (s.inode ip).d.size ∧ off.toNat + n.toNat ≤ MAXFILE * BSIZE ∧
      Torn sb (s.inode ip).d s.cache src off.toNat n.toNat (off.toNat / BSIZE)) := by
  have hv := State.current_view hlt ht
  have hcur : s.current sb ip (s.inode ip).inum = (s.inode ip).d := hv.copy.symm
  have hf' : (s.current sb ip (s.inode ip).inum).Filled s.cache := hcur ▸ hf
  obtain ⟨r, s', hrun, hpost⟩ := (writei_spec hl hv ho hf' src off n).exists_ok
  rw [hcur] at hpost
  constructor
  · rintro ⟨r₁, s₁, hrun₁, hclean⟩ ⟨hoff, hend, htorn⟩
    rw [hrun] at hrun₁
    cases hrun₁
    rcases hpost with ⟨_, _, hbad⟩ | ⟨_, _, tot, e, D', rfl, hdone⟩
    · have := BitVec.le_def.mp hoff
      omega
    · obtain ⟨hshort, hdiff⟩ := hdone.tearing.torn htorn
      obtain ⟨b, _, hne⟩ := hdiff hsync
      exact hne (congrFun (hclean (Int.ofNat_lt.mpr hshort)).2 b)
  · intro hno
    refine ⟨r, s', hrun, fun hr => ?_⟩
    rcases hpost with ⟨_, rfl, _⟩ | ⟨hoff, hend, tot, e, D', rfl, hdone⟩
    · refine ⟨fun k _ hk => ?_, hsync⟩
      have hk' := BitVec.lt_def.mp hk
      rw [← hcur] at hk'
      exact ⟨_, readi_byte hl hv ho hf' hk', readi_byte hl hv ho hf' hk'⟩
    · obtain ⟨rfl, hsync'⟩ := hdone.tearing.clean fun ht' => hno ⟨BitVec.le_def.mpr hoff, hend, ht'⟩
      refine ⟨fun k hk hsize => ?_, hsync' hsync⟩
      have hsize' := BitVec.lt_def.mp hsize
      rw [← hcur] at hsize'
      exact hdone.same_bytes hl hv ho hf' (by omega) hsize'

/-! ## A buffer that runs into a page that is not mapped -/

def threeBytes : Dinode := { emptyFile with size := 3, addrs := fun i => if i = 0 then 4 else 0 }

def threeBytesDisk (b : ℕ) : Data :=
  if b = 2 then putDinode (fun _ => 0) 1 threeBytes
  else if b = 3 then fun i => if i = 0 then 31 else 0
  else if b = 4 then fun _ => 65 else fun _ => 0

def threeBytesState : State where
  cache := threeBytesDisk
  store := threeBytesDisk
  log := []
  inode ip := if ip = ⟨0, NINODE_pos⟩ then ⟨1, 1, true, threeBytes⟩ else ⟨0, 0, false, Dinode.zero⟩

theorem threeBytes_owned : Owned smallSb threeBytesDisk (threeBytesState.current smallSb ⟨0, by decide⟩) ∅ :=
  firstBlocks_owned (f := fun n => if n = 1 then 4 else 0) (by decide) (by decide) (by decide) (by decide) (by decide)

def sameByte (i : ℕ) : Option Byte := if i = 0 then some 65 else none

/-- `writei` returns 0 of 2 bytes; the one it has copied is an `A` over an `A`. -/
theorem threeBytes_short_clean :
    (∃ s', writei smallSb ⟨0, by decide⟩ sameByte 0 2 threeBytesState = .ok (0, s')) ∧
      ShortWriteClean smallSb ⟨0, by decide⟩ sameByte 0 2 threeBytesState := by
  have hall : Allocated smallSb (fun _ => threeBytes) 1 := by decide
  have hf : threeBytes.Filled threeBytesDisk := firstBlocks_filled (by decide) 1 hall
  refine ⟨⟨_, rfl⟩, (writei_short_clean_iff smallSb_layout threeBytesState ⟨0, by decide⟩ (by decide) (by decide)
    threeBytes_owned hf rfl sameByte 0 2).mpr ?_⟩
  rintro ⟨-, -, -, -, i, -, hlt, hne⟩
  have hread : readableBytes sameByte (2 : BitVec 32).toNat = 1 := by decide
  obtain rfl : i = 0 := by omega
  exact hne (by decide)

def lastByte (i : ℕ) : Option Byte := if i = 0 then some 66 else none

/-- `writei` returns 0; the first byte of the file, an `A` before, now reads `B`, and its block is not in the log. -/
theorem lastByte_run : ∃ s', writei smallSb ⟨0, by decide⟩ lastByte 0 2 threeBytesState = .ok (0, s') ∧
    readi smallSb ⟨0, by decide⟩ (fun _ => true) 0 1 threeBytesState = .ok ((1, [65]), threeBytesState) ∧
    readi smallSb ⟨0, by decide⟩ (fun _ => true) 0 1 s' = .ok ((1, [66]), s') ∧
    s'.cache 4 0 = 66 ∧ s'.store 4 0 = 65 ∧ 4 ∉ s'.log :=
  ⟨_, rfl, rfl, rfl, rfl, rfl, by decide⟩

theorem lastByte_not_clean : ¬ ShortWriteClean smallSb ⟨0, by decide⟩ lastByte 0 2 threeBytesState := by
  obtain ⟨s', hrun, hbefore, hafter, -⟩ := lastByte_run
  rintro ⟨r, s₁, hrun₁, h⟩
  rw [hrun] at hrun₁
  cases hrun₁
  obtain ⟨v, hv, hv'⟩ := (h (by decide)).1 0 (by decide) (by decide)
  rw [hbefore] at hv
  cases hv
  rw [hafter] at hv'
  cases hv'

end Xv6Boot.Kernel.Fs
