import Xv6Boot.Kernel.FsSpace

/-! # `readi` and `writei`

A file is an array of bytes: `readi` returns a piece of it and changes nothing, `writei` replaces a piece.
-/

namespace Xv6Boot.Kernel.Fs
open Function Program

variable {sb : Superblock} {s s₀ s' : State} {ip : Ip} {c c' : ℕ → Data} {D D₀ D' : ℕ → Dinode} {F : Set ℕ}
  {b n m bn k tot off fuel : ℕ} {d : Data} {x y : Dinode} {a : BitVec 32} {E : String → Prop} {ok : ℕ → Bool}
  {i j : ℕ} {src : ℕ → Option Byte}

/-! ## Copies -/

theorem mappedPrefix_le (ok : ℕ → Bool) (m : ℕ) : mappedPrefix ok m ≤ m := by
  have h : (List.range m).findIdx (fun i => !ok i) ≤ (List.range m).length := List.findIdx_le_length
  rwa [List.length_range] at h

theorem mappedPrefix_ok (h : i < mappedPrefix ok m) : ok i = true := by
  have hi : i < (List.range m).length := h.trans_le List.findIdx_le_length
  have hn := List.not_of_lt_findIdx h
  simpa using hn

theorem mappedPrefix_lt (h : mappedPrefix ok m < m) : ∃ i < m, ok i = false := by
  have hl : (List.range m).findIdx (fun i => !ok i) < (List.range m).length := by rwa [List.length_range]
  obtain ⟨i, hi, hp⟩ := List.findIdx_lt_length.mp hl
  exact ⟨i, List.mem_range.mp hi, by simpa using hp⟩

theorem mappedPrefix_at (h : mappedPrefix ok m < m) : ok (mappedPrefix ok m) = false := by
  have hl : (List.range m).findIdx (fun i => !ok i) < (List.range m).length := by rwa [List.length_range]
  have hp := List.findIdx_getElem (w := hl)
  rw [List.getElem_range] at hp
  rw [mappedPrefix]
  simpa using hp

theorem mappedPrefix_eq (hle : j ≤ m) (hok : ∀ i < j, ok i = true) (hstop : j < m → ok j = false) :
    mappedPrefix ok m = j := by
  rcases Nat.lt_trichotomy (mappedPrefix ok m) j with hlt | he | hgt
  · have hf := mappedPrefix_at (hlt.trans_le hle)
    rw [hok _ hlt] at hf
    cases hf
  · exact he
  · have ht := mappedPrefix_ok hgt
    rw [hstop (hgt.trans_le (mappedPrefix_le ok m))] at ht
    cases ht

def readableBytes (src : ℕ → Option Byte) (n : ℕ) : ℕ := mappedPrefix (fun i => (src i).isSome) n

theorem le_readableBytes (htot : tot ≤ n) (h : ∀ i < tot, (src i).isSome = true) :
    tot ≤ readableBytes src n := by
  by_contra hlt
  have hf : (src (readableBytes src n)).isSome = false := mappedPrefix_at ((not_le.mp hlt).trans_le htot)
  rw [h _ (not_le.mp hlt)] at hf
  cases hf

theorem mappedPrefix_from (hm : tot + m ≤ n) (hle : tot ≤ readableBytes src n) :
    mappedPrefix (fun i => (src (tot + i)).isSome) m = min m (readableBytes src n - tot) := by
  refine mappedPrefix_eq (min_le_left _ _) (fun i hi => ?_) fun hlt => ?_
  · have hlt : tot + i < readableBytes src n := by omega
    exact mappedPrefix_ok hlt
  · have he : min m (readableBytes src n - tot) = readableBytes src n - tot := by omega
    have hstop : readableBytes src n < n := by omega
    have hnone : (src (readableBytes src n)).isSome = false := mappedPrefix_at hstop
    rw [he, Nat.add_sub_cancel' hle]
    exact hnone

/-! ## Reading -/

theorem Dinode.Filled.size_le (h : x.Filled c) : x.size.toNat ≤ MAXFILE * BSIZE := by
  by_contra hlt
  refine h MAXFILE (by omega) ?_
  rw [Dinode.block, fileSlot, dif_neg (by unfold MAXFILE; omega), dif_neg (by unfold MAXFILE; omega)]

theorem Dinode.Filled.block_ne (h : x.Filled c) (hk : k < x.size.toNat) : x.block c (k / BSIZE) ≠ 0 :=
  h _ ((Nat.div_mul_le_self k BSIZE).trans_lt hk)

theorem byteAt_of_block (hne : x.block c (off / BSIZE) ≠ 0) (hi : off % BSIZE + i < BSIZE) :
    x.byteAt c (off + i) = c (x.block c (off / BSIZE)).toNat (off % BSIZE + i) := by
  have hdiv : (off + i) / BSIZE = off / BSIZE := by
    unfold BSIZE at hi ⊢
    omega
  have hmod : (off + i) % BSIZE = off % BSIZE + i := by
    unfold BSIZE at hi ⊢
    omega
  rw [Dinode.byteAt, hdiv, hmod, if_neg hne]

theorem block_lt (h : k < MAXFILE * BSIZE) : k / BSIZE < MAXFILE := Nat.div_lt_of_lt_mul (by rwa [Nat.mul_comm])

theorem bmap_found (hl : Layout sb) (hv : View sb s ip D) (ho : Owned sb s.cache D F)
    (hf : (D (s.inode ip).inum).Filled s.cache) (hk : k < (D (s.inode ip).inum).size.toNat) :
    wp (bmap sb ip (k / BSIZE)) (fun a s' => s' = s ∧ a = (D (s.inode ip).inum).block s.cache (k / BSIZE)) E s := by
  refine (bmap_wp hl hv ho (block_lt (hk.trans_le hf.size_le))).mono fun a s' ⟨D', hmap⟩ => ?_
  obtain ⟨rfl, rfl⟩ := hmap.same (hf.block_ne hk)
  exact ⟨rfl, hmap.block.symm⟩

def Dinode.slice (x : Dinode) (c : ℕ → Data) (off n : ℕ) : List Byte :=
  (List.range n).map fun i => x.byteAt c (off + i)

theorem slice_add (x : Dinode) (c : ℕ → Data) (off m k : ℕ) :
    x.slice c off m ++ x.slice c (off + m) k = x.slice c off (m + k) := by
  rw [Dinode.slice, Dinode.slice, Dinode.slice, List.range_add, List.map_append, List.map_map]
  simp only [Nat.add_assoc]
  rfl

theorem readLoop_wp (hl : Layout sb) (hv : View sb s ip D) (ho : Owned sb s.cache D F)
    (hf : (D (s.inode ip).inum).Filled s.cache) {dst : ℕ → Bool} {acc : List Byte} (hfuel : n ≤ tot + fuel)
    (htot : tot ≤ n) (hend : off + (n - tot) ≤ (D (s.inode ip).inum).size.toNat) :
    wp (readLoop sb ip dst n fuel tot off acc) (fun r s' => s' = s ∧
      (r = ((n : ℤ), acc ++ (D (s.inode ip).inum).slice s.cache off (n - tot)) ∨
        r.1 = -1 ∧ ∃ i < n, dst i = false)) E s := by
  induction fuel generalizing tot off acc with
  | zero =>
    obtain rfl : tot = n := by omega
    simp [readLoop, Dinode.slice]
  | succ fuel ih =>
    rw [readLoop]
    split
    · next hlt =>
      refine (bmap_found hl hv ho hf (by omega)).bind fun a s' ⟨hs, ha⟩ => ?_
      rw [hs]
      have hne : a ≠ 0 := ha ▸ hf.block_ne (by omega)
      rw [if_neg hne]
      simp only [bread, wp_bind, wp_get, wp_pure]
      have hm : 0 < min (n - tot) (BSIZE - off % BSIZE) := by
        have hpos : off % BSIZE < BSIZE := Nat.mod_lt _ (by decide)
        omega
      split
      · next hj =>
        obtain ⟨i, hi, hdst⟩ := mappedPrefix_lt hj
        exact ⟨rfl, Or.inr ⟨rfl, tot + i, by omega, hdst⟩⟩
      · next hj =>
        have hj' : mappedPrefix (fun i => dst (tot + i)) (min (n - tot) (BSIZE - off % BSIZE)) =
            min (n - tot) (BSIZE - off % BSIZE) := le_antisymm (mappedPrefix_le _ _) (not_lt.mp hj)
        rw [hj']
        generalize hmin : min (n - tot) (BSIZE - off % BSIZE) = m at hm ⊢
        have hout : (List.range m).map (fun i => s.cache a.toNat (off % BSIZE + i)) =
            (D (s.inode ip).inum).slice s.cache off m := by
          refine List.map_congr_left fun i hi => ?_
          have hi' := List.mem_range.mp hi
          rw [byteAt_of_block (ha ▸ hne) (by omega), ha]
        refine (ih (by omega) (by omega) (by omega)).mono fun r s' h => ⟨h.1, h.2.imp_left fun he => ?_⟩
        have hsplit : n - tot = m + (n - (tot + m)) := by omega
        rw [he, hout, hsplit, ← slice_add, List.append_assoc]
    · next hge =>
      obtain rfl : tot = n := by omega
      simp [Dinode.slice]

/-- Reading changes nothing and returns the bytes of the file, unless a page of the destination is missing. -/
theorem readi_wp (hl : Layout sb) (hv : View sb s ip D) (ho : Owned sb s.cache D F)
    (hf : (D (s.inode ip).inum).Filled s.cache) (dst : ℕ → Bool) (off n : BitVec 32) :
    wp (readi sb ip dst off n) (fun r s' => s' = s ∧
      ((r = (0, []) ∧ ((D (s.inode ip).inum).size < off ∨ off + n < off)) ∨
        off ≤ (D (s.inode ip).inum).size ∧ off ≤ off + n ∧ ∃ l, l = min n.toNat
            ((D (s.inode ip).inum).size.toNat - off.toNat) ∧
          (r = ((l : ℤ), (D (s.inode ip).inum).slice s.cache off.toNat l) ∨ r.1 = -1 ∧ ∃ i < l, dst i = false))) E s := by
  rw [readi, wp_bind, wp_get]
  simp only [hv.copy]
  split
  · next h => exact ⟨rfl, Or.inl ⟨rfl, h⟩⟩
  · next h =>
    obtain ⟨hoff, hsum⟩ := not_or.mp h
    have hoff' : off.toNat ≤ (D (s.inode ip).inum).size.toNat := BitVec.le_def.mp (BitVec.not_lt.mp hoff)
    have hsum' : off.toNat ≤ (off + n).toNat := BitVec.le_def.mp (BitVec.not_lt.mp hsum)
    have hadd : (off + n).toNat = off.toNat + n.toNat := by
      rw [BitVec.toNat_add] at hsum' ⊢
      omega
    have hl' : (if off + n > (D (s.inode ip).inum).size then (D (s.inode ip).inum).size - off else n).toNat =
        min n.toNat ((D (s.inode ip).inum).size.toNat - off.toNat) := by
      split
      · next hgt =>
        have hgt' := BitVec.lt_def.mp hgt
        rw [BitVec.toNat_sub_of_le (BitVec.not_lt.mp hoff)]
        omega
      · next hgt =>
        have hle := BitVec.le_def.mp (BitVec.not_lt.mp hgt)
        omega
    rw [hl']
    refine (readLoop_wp hl hv ho hf (by omega) (Nat.zero_le _) (by omega)).mono fun r s' ⟨hs, hr⟩ =>
      ⟨hs, Or.inr ⟨BitVec.not_lt.mp hoff, BitVec.not_lt.mp hsum, _, rfl, ?_⟩⟩
    simpa using hr

/-! ## A store to a block of the file -/

theorem Owned.block_data (ho : Owned sb c D F) (hn : Allocated sb D n) (hne : (D n).block c bn ≠ 0) :
    sb.nmeta ≤ ((D n).block c bn).toNat := by
  obtain ⟨t, _, ht⟩ := slot_of_block hne
  rw [← ht] at hne ⊢
  exact (ho.ref_data hn hne).1

theorem Owned.block_ne_indirect (ho : Owned sb c D F) (hn : Allocated sb D n) (hne : (D n).block c bn ≠ 0)
    (hm : Allocated sb D m) : ((D m).addrs indirect).toNat ≠ ((D n).block c bn).toNat := by
  intro he
  obtain ⟨t, hslot, ht⟩ := slot_of_block hne
  have href : (D m).ref c (.addr indirect) = (D n).ref c t := (BitVec.eq_of_toNat_eq he).trans ht.symm
  have hinj := ho.ref_inj hn hm (by rw [ht]; exact hne) href
  exact fileSlot_ne_indirect (hinj.2 ▸ hslot)

theorem Owned.ref_store (ho : Owned sb c D F) (hn : Allocated sb D n) (hne : (D n).block c bn ≠ 0)
    (hm : Allocated sb D m) {t : Slot} : (D m).ref (update c ((D n).block c bn).toNat d) t = (D m).ref c t :=
  ref_congr fun _ => update_of_ne (ho.block_ne_indirect hn hne hm) _ _

theorem Owned.byteAt_store (ho : Owned sb c D F) (hn : Allocated sb D n) (hne : (D n).block c bn ≠ 0)
    (hm : Allocated sb D m) :
    (D m).byteAt (update c ((D n).block c bn).toNat d) k =
      if m = n ∧ k / BSIZE = bn then d (k % BSIZE) else (D m).byteAt c k := by
  have hblock : ∀ bn', (D m).block (update c ((D n).block c bn).toNat d) bn' = (D m).block c bn' :=
    fun _ => block_congr fun _ => ho.ref_store hn hne hm
  rw [Dinode.byteAt, Dinode.byteAt, hblock]
  by_cases h0 : (D m).block c (k / BSIZE) = 0
  · rw [if_pos h0, if_pos h0, if_neg]
    rintro ⟨rfl, rfl⟩
    exact hne h0
  · rw [if_neg h0, if_neg h0]
    split
    · next h => rw [h.1, h.2, update_self]
    · next h =>
      rw [update_of_ne]
      intro he
      obtain ⟨t, hslot, ht⟩ := slot_of_block hne
      obtain ⟨u, hslot', hu⟩ := slot_of_block h0
      have hinj := ho.ref_inj hn hm (by rw [ht]; exact hne) (t := t) (u := u)
        (by rw [ht, hu]; exact BitVec.eq_of_toNat_eq he)
      rw [hinj.2] at hslot'
      exact h ⟨hinj.1, fileSlot_inj hslot' hslot⟩

theorem byteAt_copyInto (hj : (off + tot) % BSIZE + j ≤ BSIZE)
    (hne : x.block c ((off + tot) / BSIZE) ≠ 0) :
    (if n = n ∧ k / BSIZE = (off + tot) / BSIZE then
        copyInto (c (x.block c ((off + tot) / BSIZE)).toNat) ((off + tot) % BSIZE) src tot j (k % BSIZE)
      else x.byteAt c k) =
      if off + tot ≤ k ∧ k < off + tot + j then (src (k - off)).getD 0 else x.byteAt c k := by
  by_cases hk : k / BSIZE = (off + tot) / BSIZE
  · rw [if_pos ⟨rfl, hk⟩, copyInto]
    by_cases hin : (off + tot) % BSIZE ≤ k % BSIZE ∧ k % BSIZE < (off + tot) % BSIZE + j
    · have hidx : tot + (k % BSIZE - (off + tot) % BSIZE) = k - off := by
        unfold BSIZE at *
        omega
      rw [if_pos hin, if_pos (by unfold BSIZE at *; omega), hidx]
    · rw [if_neg hin, if_neg (by unfold BSIZE at *; omega), Dinode.byteAt, hk, if_neg hne]
  · rw [if_neg (fun h => hk h.2), if_neg]
    unfold BSIZE at *
    omega

theorem View.store (s' : State) (hl : Layout sb) (hv : View sb s ip D) (ho : Owned sb s.cache D F)
    (hne : (D (s.inode ip).inum).block s.cache bn ≠ 0) (hi : s'.inode = s.inode)
    (hc : s'.cache = update s.cache ((D (s.inode ip).inum).block s.cache bn).toNat d) :
    View sb s' ip D ∧ Owned sb s'.cache D F ∧ ∀ m < sb.ninodes, dinode sb s'.cache m = dinode sb s.cache m := by
  have hdata := ho.block_data hv.alloc hne
  have hdisk : ∀ m < sb.ninodes, dinode sb s'.cache m = dinode sb s.cache m := by
    intro m hm
    rw [hc, dinode_data hl hm hdata]
  refine ⟨⟨hi ▸ hv.alloc, hi ▸ hv.copy, fun m hm hmn => ?_⟩, ?_, hdisk⟩
  · rw [hdisk m hm]
    exact hv.disk m hm (hi ▸ hmn)
  · rw [hc]
    exact ho.setBlock hl hdata d fun m hm _ => ho.block_ne_indirect hv.alloc hne hm

/-! ## Writing -/

/-- After `tot` bytes of `src` at `off`; bytes from `off + tot` to `off + e` may be anything. -/
structure Written (sb : Superblock) (ip : Ip) (src : ℕ → Option Byte) (off tot e : ℕ) (s₀ s : State)
    (D₀ D : ℕ → Dinode) : Prop extends Readdressed sb ip s₀ s D₀ D where
  ref : ∀ m t, Allocated sb D₀ m → (D₀ m).ref s₀.cache t ≠ 0 → (D m).ref s.cache t = (D₀ m).ref s₀.cache t
  other : ∀ m, Allocated sb D₀ m → m ≠ (s₀.inode ip).inum → ∀ k, (D m).byteAt s.cache k = (D₀ m).byteAt s₀.cache k
  bytes : ∀ k, (k < off + tot ∨ off + e ≤ k) → (D (s₀.inode ip).inum).byteAt s.cache k =
    if off ≤ k ∧ k < off + tot then (src (k - off)).getD 0 else (D₀ (s₀.inode ip).inum).byteAt s₀.cache k
  filled : ∀ bn, bn * BSIZE < max (D₀ (s₀.inode ip).inum).size.toNat (off + tot) →
    (D (s₀.inode ip).inum).block s.cache bn ≠ 0
  readable : ∀ i < tot, (src i).isSome = true

namespace Written
variable {e : ℕ}

theorem start (hf : (D (s.inode ip).inum).Filled s.cache) (hoff : off ≤ (D (s.inode ip).inum).size.toNat) :
    Written sb ip src off 0 0 s s D D where
  toReaddressed := .refl ip s D
  ref _ _ _ _ := rfl
  other _ _ _ _ := rfl
  bytes k _ := by rw [if_neg (by omega)]
  filled bn hbn := hf bn (by omega)
  readable i hi := absurd hi (Nat.not_lt_zero _)

theorem grow (h : Written sb ip src off tot e s₀ s D₀ D) (hn : Allocated sb D₀ (s₀.inode ip).inum)
    (hg : Grown sb ip s s' D D') : Written sb ip src off tot e s₀ s' D₀ D' where
  toReaddressed := h.toReaddressed.trans hg.toReaddressed
  ref m t hm ht := by
    have he := h.ref m t hm ht
    exact (hg.ref m t (h.allocated.mpr hm) (by rw [he]; exact ht)).trans he
  other m hm hmn k := (hg.byteAt m (h.allocated.mpr hm) k).trans (h.other m hm hmn k)
  bytes k hk := (hg.byteAt _ (h.allocated.mpr hn) k).trans (h.bytes k hk)
  filled bn hbn := by
    have hne := h.filled bn hbn
    obtain ⟨t, hslot, ht⟩ := slot_of_block hne
    rw [block_of_slot hslot, hg.ref _ t (h.allocated.mpr hn) (by rw [ht]; exact hne), ht]
    exact hne
  readable := h.readable

/-- One block is written: `j` bytes at the place reached; `e = j` if they all count. -/
theorem store (s' : State) (h : Written sb ip src off tot tot s₀ s D₀ D) (hn : Allocated sb D₀ (s₀.inode ip).inum)
    (ho : Owned sb s.cache D F) (hne : (D (s₀.inode ip).inum).block s.cache ((off + tot) / BSIZE) ≠ 0)
    (hi : s'.inode = s.inode) {k : ℕ} (hk : k = 0 ∨ k = j) (hj : (off + tot) % BSIZE + j ≤ BSIZE)
    (hread : ∀ i < j, (src (tot + i)).isSome = true)
    (hdisk : ∀ m < sb.ninodes, dinode sb s'.cache m = dinode sb s.cache m)
    (hc : s'.cache = update s.cache ((D (s₀.inode ip).inum).block s.cache ((off + tot) / BSIZE)).toNat
      (copyInto (s.cache ((D (s₀.inode ip).inum).block s.cache ((off + tot) / BSIZE)).toNat) ((off + tot) % BSIZE) src tot
      j)) :
    Written sb ip src off (tot + k) (tot + j) s₀ s' D₀ D := by
  have hnD := h.allocated.mpr hn
  have href : ∀ m, Allocated sb D m → ∀ t, (D m).ref s'.cache t = (D m).ref s.cache t := by
    intro m hm t
    rw [hc]
    exact ho.ref_store hnD hne hm
  constructor
  · exact ⟨hi ▸ h.entry, h.inode, fun m hm => (hdisk m hm).trans (h.disk m hm)⟩
  · exact fun m t hm ht => (href m (h.allocated.mpr hm) t).trans (h.ref m t hm ht)
  · intro m hm hmn k'
    rw [hc, ho.byteAt_store hnD hne (h.allocated.mpr hm), if_neg (fun hp => hmn hp.1)]
    exact h.other m hm hmn k'
  · intro i hi'
    have hold := h.bytes i (by omega)
    rw [hc, ho.byteAt_store hnD hne hnD, byteAt_copyInto hj hne]
    by_cases hin : off + tot ≤ i ∧ i < off + tot + j
    · rw [if_pos hin, if_pos (by omega)]
    · rw [if_neg hin, hold]
      by_cases hin' : off ≤ i ∧ i < off + tot
      · rw [if_pos hin', if_pos (by omega)]
      · rw [if_neg hin', if_neg (by omega)]
  · intro bn hbn
    rw [block_congr fun t => href _ hnD t]
    by_cases hold : bn * BSIZE < max (D₀ (s₀.inode ip).inum).size.toNat (off + tot)
    · exact h.filled bn hold
    · have hbn' : bn = (off + tot) / BSIZE := by
        unfold BSIZE at *
        omega
      rw [hbn']
      exact hne
  · intro i hi
    by_cases hold : i < tot
    · exact h.readable i hold
    · have hr := hread (i - tot) (by omega)
      rwa [Nat.add_sub_cancel' (by omega)] at hr

end Written

/-- The disk is full at the place `k`, where a file of `size` bytes needs another block. -/
structure Stuck (sb : Superblock) (c : ℕ → Data) (size k : ℕ) : Prop where
  full : Full sb c
  edge : k % BSIZE = 0
  size_le : size ≤ k

/-- How the loop of `writei` ends: all is written, or the disk is full, or a page of the source is missing. -/
structure LoopDone (sb : Superblock) (ip : Ip) (src : ℕ → Option Byte) (off n tot e : ℕ) (s₀ s : State)
    (D₀ D : ℕ → Dinode) (F : Set ℕ) : Prop where
  view : View sb s ip D
  owned : Owned sb s.cache D F
  written : Written sb ip src off tot e s₀ s D₀ D
  tot_le : tot ≤ n
  e_le : e ≤ n
  dirty : e = tot ∨ ∃ i < n, src i = none
  short : tot < n → Stuck sb s.cache (D₀ (s₀.inode ip).inum).size.toNat (off + tot) ∨ ∃ i < n, src i = none

/-- Where, counted from `off`, the part of the file that lies in the block of byte `p` begins. -/
def chunkStart (off p : ℕ) : ℕ := (off + p) / BSIZE * BSIZE - off

/-- Part of a block is copied before a page of the source is found missing, and what is copied is not what was there:
the blocks from `first` up to that one are there or can be allocated. -/
structure Torn (sb : Superblock) (x : Dinode) (c : ℕ → Data) (src : ℕ → Option Byte) (off n first : ℕ) : Prop where
  stop : readableBytes src n < n
  room : x.missing c first ((off + readableBytes src n) / BSIZE) ≤ freeBlocks sb c
  differs : ∃ i, chunkStart off (readableBytes src n) ≤ i ∧ i < readableBytes src n ∧ src i ≠ some (x.byteAt c (off + i))

theorem Torn.congr {first first' : ℕ}
    (hroom : readableBytes src n < n → (y.missing c' first' ((off + readableBytes src n) / BSIZE) ≤ freeBlocks sb c' ↔
      x.missing c first ((off + readableBytes src n) / BSIZE) ≤ freeBlocks sb c))
    (hbyte : readableBytes src n < n → ∀ i, chunkStart off (readableBytes src n) ≤ i → y.byteAt c' (off + i) = x.byteAt c
      (off + i)) :
    Torn sb y c' src off n first' ↔ Torn sb x c src off n first := by
  constructor
  · rintro ⟨hstop, hr, i, hi, hlt, hne⟩
    exact ⟨hstop, (hroom hstop).mp hr, i, hi, hlt, hbyte hstop i hi ▸ hne⟩
  · rintro ⟨hstop, hr, i, hi, hlt, hne⟩
    exact ⟨hstop, (hroom hstop).mpr hr, i, hi, hlt, (hbyte hstop i hi).symm ▸ hne⟩

theorem copyInto_eq_self (hne : x.block c ((off + tot) / BSIZE) ≠ 0)
    (hj : (off + tot) % BSIZE + j ≤ BSIZE) (h : ∀ i < j, src (tot + i) = some (x.byteAt c (off + (tot + i)))) :
    copyInto (c (x.block c ((off + tot) / BSIZE)).toNat) ((off + tot) % BSIZE) src tot j =
      c (x.block c ((off + tot) / BSIZE)).toNat := by
  funext k
  rw [copyInto]
  split
  · next hk =>
    have hbyte := byteAt_of_block hne (i := k - (off + tot) % BSIZE) (by omega)
    rw [h _ (by omega), Option.getD_some, ← Nat.add_assoc, hbyte, Nat.add_sub_cancel' hk.1]
  · rfl

theorem copyInto_ne (hne : x.block c ((off + tot) / BSIZE) ≠ 0)
    (hj : (off + tot) % BSIZE + j ≤ BSIZE) (hi : i < j) (hsome : (src (tot + i)).isSome = true)
    (h : src (tot + i) ≠ some (x.byteAt c (off + (tot + i)))) :
    copyInto (c (x.block c ((off + tot) / BSIZE)).toNat) ((off + tot) % BSIZE) src tot j ≠
      c (x.block c ((off + tot) / BSIZE)).toNat := by
  intro he
  have hk := congrFun he ((off + tot) % BSIZE + i)
  rw [copyInto, if_pos (by omega), Nat.add_sub_cancel_left, ← byteAt_of_block hne (by omega), Nat.add_assoc] at hk
  obtain ⟨v, hv⟩ := Option.isSome_iff_exists.mp hsome
  rw [hv, Option.getD_some] at hk
  exact h (hv.trans (congrArg some hk))

theorem torn_here (hl : Layout sb) (hv : View sb s ip D) (ho : Owned sb s.cache D F)
    (hstep : BmapStep sb ip ((off + tot) / BSIZE) s a s') (ha : a ≠ 0)
    (hbyte : ∀ k, (s'.inode ip).d.byteAt s'.cache k = (s.inode ip).d.byteAt s.cache k)
    (hstop : readableBytes src n < n) (hp : readableBytes src n = tot + j) (hj : (off + tot) % BSIZE + j < BSIZE)
    (hedge : tot = 0 ∨ (off + tot) % BSIZE = 0) :
    Torn sb (s.inode ip).d s.cache src off n ((off + tot) / BSIZE) ↔
      ∃ i < j, src (tot + i) ≠ some ((s'.inode ip).d.byteAt s'.cache (off + (tot + i))) := by
  have hchunk : chunkStart off (readableBytes src n) = tot := by
    unfold chunkStart BSIZE at *
    omega
  have hfirst : (off + readableBytes src n) / BSIZE = (off + tot) / BSIZE := by
    unfold BSIZE at *
    omega
  constructor
  · rintro ⟨-, -, i, hi, hip, hne⟩
    rw [hchunk] at hi
    refine ⟨i - tot, by omega, ?_⟩
    rw [Nat.add_sub_cancel' hi, hbyte]
    exact hne
  · rintro ⟨i, hi, hne⟩
    rw [hbyte] at hne
    refine ⟨hstop, ?_, tot + i, by omega, by omega, hne⟩
    rw [hfirst, missing_self]
    exact not_lt.mp fun h => ha ((hstep.space hl hv ho).1.mpr h)

theorem torn_later (hl : Layout sb) (hv : View sb s ip D) (ho : Owned sb s.cache D F)
    (hstep : BmapStep sb ip ((off + tot) / BSIZE) s a s') (ha : a ≠ 0) (hbn : (off + tot) / BSIZE < MAXFILE)
    (href : ∀ t, y.ref c' t = (s'.inode ip).d.ref s'.cache t) (hfree : freeBlocks sb c' = freeBlocks sb s'.cache)
    (hbyte : ∀ k, off + (tot + m) ≤ k → y.byteAt c' k = (s.inode ip).d.byteAt s.cache k)
    (hm : tot + m = n ∨ (off + tot) % BSIZE + m = BSIZE) (hle : tot + m ≤ readableBytes src n) :
    Torn sb y c' src off n ((off + (tot + m)) / BSIZE) ↔
      Torn sb (s.inode ip).d s.cache src off n ((off + tot) / BSIZE) := by
  have hnext : readableBytes src n < n → (off + (tot + m)) / BSIZE = (off + tot) / BSIZE + 1 ∧
      (off + tot) / BSIZE < (off + readableBytes src n) / BSIZE ∧
      off + (tot + m) ≤ off + chunkStart off (readableBytes src n) := by
    intro hstop
    unfold chunkStart BSIZE at *
    omega
  refine Torn.congr (fun hstop => ?_) fun hstop i hi => hbyte _ ?_
  · obtain ⟨hfirst, hlt, -⟩ := hnext hstop
    have hmiss := hstep.missing hl hv ho ha hbn hlt
    have htake := (hstep.space hl hv ho).2 ha
    rw [hfirst, missing_congr href, hfree]
    omega
  · obtain ⟨-, -, hge⟩ := hnext hstop
    omega

/-- What the loop does to blocks that are copied only in part. -/
structure Tearing (sb : Superblock) (ip : Ip) (src : ℕ → Option Byte) (off n first tot e : ℕ) (s s' : State) : Prop where
  clean : ¬ Torn sb (s.inode ip).d s.cache src off n first → e = tot ∧ (s.cache = s.store → s'.cache = s'.store)
  torn : Torn sb (s.inode ip).d s.cache src off n first →
    tot < n ∧ (s.cache = s.store → ∃ b, sb.nmeta ≤ b ∧ s'.cache b ≠ s'.store b)

/-- What the loop leaves in `s'` when it is entered in `s` at the block `first`. -/
def LoopPost (sb : Superblock) (ip : Ip) (src : ℕ → Option Byte) (off n first : ℕ) (s₀ s : State) (D₀ : ℕ → Dinode)
    (F : Set ℕ) (r : ℕ × ℕ) (s' : State) : Prop :=
  r.2 = off + r.1 ∧ ∃ e D', LoopDone sb ip src off n r.1 e s₀ s' D₀ D' F ∧ Tearing sb ip src off n first r.1 e s s'

theorem LoopPost.all (hv : View sb s ip D) (ho : Owned sb s.cache D F) (hw : Written sb ip src off n n s₀ s D₀ D)
    (hle : n ≤ readableBytes src n) (first : ℕ) : LoopPost sb ip src off n first s₀ s D₀ F (n, off + n) s :=
  ⟨rfl, n, D, ⟨hv, ho, hw, le_rfl, le_rfl, Or.inl rfl, fun h => absurd h (Nat.lt_irrefl _)⟩, fun _ => ⟨rfl, id⟩,
    fun ht => absurd ht.stop (not_lt.mpr hle)⟩

namespace Mapped
variable (h : Mapped sb ip bn s s' D D' F a)
include h

theorem inode_block : (D' (s'.inode ip).inum).block s'.cache bn = a := h.grown.inum ▸ h.block

theorem copy_byteAt (hv : View sb s ip D) (k : ℕ) :
    (s'.inode ip).d.byteAt s'.cache k = (s.inode ip).d.byteAt s.cache k := by
  rw [h.view.copy, h.grown.inum, hv.copy]
  exact h.grown.byteAt _ hv.alloc k

theorem data_le (ha : a ≠ 0) : sb.nmeta ≤ a.toNat := by
  rw [← h.inode_block] at ha ⊢
  exact h.owned.block_data h.view.alloc ha

end Mapped

/-- The blocks after `j` bytes have been copied to block `a`. -/
def copied (c : ℕ → Data) (a : BitVec 32) (src : ℕ → Option Byte) (off tot j : ℕ) : ℕ → Data :=
  update c a.toNat (copyInto (c a.toNat) ((off + tot) % BSIZE) src tot j)

theorem readable_of_le (h : tot + j ≤ readableBytes src n) (hi : i < j) : (src (tot + i)).isSome = true :=
  mappedPrefix_ok (i := tot + i) (show tot + i < readableBytes src n by omega)

/-! ### The branches of a turn -/

section Turn
variable {s₁ : State} {D₁ : ℕ → Dinode} (hl : Layout sb) (hv₀ : View sb s₀ ip D₀) (hv : View sb s ip D)
  (ho : Owned sb s.cache D F) (hmap : Mapped sb ip ((off + tot) / BSIZE) s s₁ D D₁ F a)
  (hstep : BmapStep sb ip ((off + tot) / BSIZE) s a s₁) (hw : Written sb ip src off tot tot s₀ s₁ D₀ D₁)

include hl hv ho hmap hstep hw in
theorem LoopPost.full (ha : a = 0) (htot : tot ≤ n) (hle : tot ≤ readableBytes src n) :
    LoopPost sb ip src off n ((off + tot) / BSIZE) s₀ s D₀ F (tot, off + tot) s₁ := by
  -- the blocks below the size and below what is written are there
  have hstuck : max (D₀ (s₀.inode ip).inum).size.toNat (off + tot) ≤ (off + tot) / BSIZE * BSIZE := by
    by_contra hin
    refine hw.filled _ (not_le.mp hin) ?_
    rw [← hw.inum, hmap.grown.inum, hmap.block, ha]
  refine ⟨rfl, tot, D₁, ⟨hmap.view, hmap.owned, hw, htot, htot, Or.inl rfl, fun _ => Or.inl ⟨hmap.full ha, ?_, ?_⟩⟩,
    fun _ => ⟨rfl, hstep.synced⟩, fun ht => ?_⟩
  · unfold BSIZE at hstuck ⊢
    omega
  · exact (le_max_left _ _).trans (hstuck.trans (Nat.div_mul_le_self _ _))
  · have hneed := (need_le_missing (x := (s.inode ip).d) (c := s.cache)
      (Nat.div_le_div_right (c := BSIZE) (Nat.add_le_add_left hle off))).trans ht.room
    exact absurd ((hstep.space hl hv ho).1.mp ha) (not_lt.mpr hneed)

variable (ha : a ≠ 0) (hroom : (off + tot) % BSIZE + j ≤ BSIZE)
include hl hmap ha hroom

include hv₀ hw in
/-- The store, whether or not the block is then logged. -/
theorem Mapped.store (hread : tot + j ≤ readableBytes src n) (st : ℕ → Data) (lg : List ℕ) :
    View sb ⟨copied s₁.cache a src off tot j, st, lg, s₁.inode⟩ ip D₁ ∧ Owned sb (copied s₁.cache a src off tot j) D₁ F ∧
      ∀ k, (k = 0 ∨ k = j) →
        Written sb ip src off (tot + k) (tot + j) s₀ ⟨copied s₁.cache a src off tot j, st, lg, s₁.inode⟩ D₀ D₁ := by
  generalize hc : copied s₁.cache a src off tot j = c'
  rw [← hmap.inode_block] at ha
  rw [copied, ← hmap.inode_block] at hc
  obtain ⟨hv', ho', hdisk⟩ := hmap.view.store ⟨c', st, lg, s₁.inode⟩ hl hmap.owned ha rfl hc.symm
  exact ⟨hv', ho', fun k hk => hw.store ⟨c', st, lg, s₁.inode⟩ hv₀.alloc hmap.owned (hw.inum ▸ ha) rfl hk hroom
    (fun i => readable_of_le hread) hdisk (hw.inum ▸ hc.symm)⟩

include hv₀ hv ho hstep hw in
/-- A page is missing: the block is left as copied so far. -/
theorem LoopPost.missing (hlt : tot < n) (hj : (off + tot) % BSIZE + j < BSIZE) (hedge : tot = 0 ∨ (off + tot) % BSIZE = 0)
    (hstop : readableBytes src n < n) (hp : readableBytes src n = tot + j) :
    LoopPost sb ip src off n ((off + tot) / BSIZE) s₀ s D₀ F (tot, off + tot)
      ⟨copied s₁.cache a src off tot j, s₁.store, s₁.log, s₁.inode⟩ := by
  have hnone : ∃ i < n, src i = none := by
    obtain ⟨i, hi, hsrc⟩ := mappedPrefix_lt hstop
    exact ⟨i, hi, by simpa using hsrc⟩
  have htorn := torn_here hl hv ho hstep ha (hmap.copy_byteAt hv) hstop hp hj hedge
  have hblock : (s₁.inode ip).d.block s₁.cache ((off + tot) / BSIZE) = a := hmap.view.copy ▸ hmap.inode_block
  by_cases hdiff : ∃ i < j, src (tot + i) ≠ some ((s₁.inode ip).d.byteAt s₁.cache (off + (tot + i)))
  · obtain ⟨hv', ho', hw'⟩ := hmap.store hl hv₀ hw ha hroom hp.ge s₁.store s₁.log
    refine ⟨rfl, tot + j, D₁, ⟨hv', ho', hw' 0 (Or.inl rfl), hlt.le, by omega, Or.inr hnone, fun _ => Or.inr hnone⟩,
      fun hno => absurd (htorn.mpr hdiff) hno, fun _ => ⟨hlt, fun hs => ⟨_, hmap.data_le ha, ?_⟩⟩⟩
    obtain ⟨i, hi, hne⟩ := hdiff
    dsimp only [copied]
    rw [← hstep.synced hs, update_self, ← hblock]
    exact copyInto_ne (hblock.symm ▸ ha) hroom hi (readable_of_le hp.ge hi) hne
  · simp only [not_exists, not_and, not_not] at hdiff
    have hsame : copied s₁.cache a src off tot j = s₁.cache := by
      rw [copied, ← hblock, copyInto_eq_self (hblock.symm ▸ ha) hroom hdiff, update_eq_self]
    rw [hsame]
    refine ⟨rfl, tot, D₁, ⟨hmap.view, hmap.owned, hw, hlt.le, hlt.le, Or.inl rfl, fun _ => Or.inr hnone⟩,
      fun _ => ⟨rfl, hstep.synced⟩, fun ht => ?_⟩
    obtain ⟨i, hi, hne⟩ := htorn.mp ht
    exact absurd (hdiff i hi) hne

include hv ho hstep in
/-- The block is logged, and the loop goes on. -/
theorem LoopPost.more {r : ℕ × ℕ} {st : ℕ → Data} {lg : List ℕ} (hbn : (off + tot) / BSIZE < MAXFILE)
    (hj : tot + j = n ∨ (off + tot) % BSIZE + j = BSIZE) (hle : tot + j ≤ readableBytes src n)
    (hst : s₁.cache = s₁.store → copied s₁.cache a src off tot j = st)
    (h : LoopPost sb ip src off n ((off + (tot + j)) / BSIZE) s₀ ⟨copied s₁.cache a src off tot j, st, lg, s₁.inode⟩ D₀ F r
      s') : LoopPost sb ip src off n ((off + tot) / BSIZE) s₀ s D₀ F r s' := by
  have hb := hmap.inode_block
  have href : ∀ t, (s₁.inode ip).d.ref (copied s₁.cache a src off tot j) t = (s₁.inode ip).d.ref s₁.cache t := by
    intro t
    rw [hmap.view.copy, copied, ← hb]
    exact hmap.owned.ref_store hmap.view.alloc (hb.symm ▸ ha) hmap.view.alloc
  have hbyte : ∀ k, off + (tot + j) ≤ k →
      (s₁.inode ip).d.byteAt (copied s₁.cache a src off tot j) k = (s.inode ip).d.byteAt s.cache k := by
    intro k hk
    rw [← hmap.copy_byteAt hv, hmap.view.copy, copied, ← hb, hmap.owned.byteAt_store hmap.view.alloc (hb.symm ▸ ha)
      hmap.view.alloc, byteAt_copyInto hroom (hb.symm ▸ ha), if_neg (by omega)]
  have htorn := torn_later hl hv ho hstep ha hbn href (freeBlocks_data hl (hmap.data_le ha)) hbyte hj hle
  obtain ⟨hr, e, D', hdone, hte⟩ := h
  refine ⟨hr, e, D', hdone, fun hno => ?_, fun ht => ?_⟩
  · obtain ⟨he, hsync⟩ := hte.clean fun h => hno (htorn.mp h)
    exact ⟨he, fun hs => hsync (hst (hstep.synced hs))⟩
  · obtain ⟨hlt, hne⟩ := hte.torn (htorn.mpr ht)
    exact ⟨hlt, fun hs => hne (hst (hstep.synced hs))⟩

end Turn

theorem writeLoop_spec (hl : Layout sb) (hv₀ : View sb s₀ ip D₀) (hv : View sb s ip D)
    (ho : Owned sb s.cache D F) (hw : Written sb ip src off tot tot s₀ s D₀ D) (hend : off + n ≤ MAXFILE * BSIZE)
    (htot : tot ≤ n) (hfuel : n ≤ tot + fuel) (hedge : tot < n → tot = 0 ∨ (off + tot) % BSIZE = 0) :
    wp (writeLoop sb ip src n fuel tot (off + tot)) (LoopPost sb ip src off n ((off + tot) / BSIZE) s₀ s D₀ F) E s := by
  have hle := le_readableBytes htot hw.readable
  induction fuel generalizing s D tot with
  | zero =>
    obtain rfl : tot = n := by omega
    exact .all hv ho hw hle _
  | succ fuel ih =>
    rw [writeLoop]
    split
    · next hlt =>
      have hbn : (off + tot) / BSIZE < MAXFILE := block_lt (by omega)
      refine ((bmap_wp hl hv ho hbn).and (bmap_step hl hv ho hbn)).bind fun a s₁ ⟨⟨D₁, hmap⟩, hstep⟩ => ?_
      have hw₁ := hw.grow hv₀.alloc hmap.grown
      split
      · next ha => exact .full hl hv ho hmap hstep hw₁ ha htot hle
      · next ha =>
        simp only [bread, setData, wp_bind, wp_get, wp_pure, wp_modify]
        have hmod : (off + tot) % BSIZE < BSIZE := Nat.mod_lt _ (by decide)
        have hfrom : mappedPrefix (fun i => (src (tot + i)).isSome) (min (n - tot) (BSIZE - (off + tot) % BSIZE)) =
            min (min (n - tot) (BSIZE - (off + tot) % BSIZE)) (readableBytes src n - tot) :=
          mappedPrefix_from (by omega) hle
        generalize mappedPrefix (fun i => (src (tot + i)).isSome) (min (n - tot) (BSIZE - (off + tot) % BSIZE)) = j
          at hfrom ⊢
        generalize hmin : min (n - tot) (BSIZE - (off + tot) % BSIZE) = m at hfrom ⊢
        have hroom : (off + tot) % BSIZE + j ≤ BSIZE := by omega
        split
        · next hjm =>
          exact .missing hl hv₀ hv ho hmap hstep hw₁ ha hroom hlt (by omega) (hedge hlt) (by omega) (by omega)
        · next hjm =>
          obtain rfl : j = m := by omega
          simp only [logWrite, wp_bind, wp_modify]
          rw [Nat.add_assoc]
          have hall : tot + j ≤ readableBytes src n := by omega
          obtain ⟨hv', ho', hw'⟩ := hmap.store hl hv₀ hw₁ ha hroom hall _ _
          refine (ih hv' ho' (hw' _ (Or.inr rfl)) (by omega) (by omega) ?_ hall).mono fun r s' h =>
            .more hl hv ho hmap hstep ha hroom hbn (by omega) hall (fun hs => ?_) h
          · intro hlt'
            right
            unfold BSIZE at *
            omega
          · rw [copied, hs, update_self]
    · next hge =>
      obtain rfl : tot = n := by omega
      exact .all hv ho hw hle _

theorem Owned.ref_setDinode (hl : Layout sb) (ho : Owned sb c D F) (hn : n < sb.ninodes) (hm : Allocated sb D m)
    {t : Slot} : (D m).ref (Fs.setDinode sb c n x) t = (D m).ref c t :=
  ref_congr fun hne => setDinode_data hl hn (ho.ref_data hm (t := .addr indirect) hne).1

theorem Owned.byteAt_setDinode (hl : Layout sb) (ho : Owned sb c D F) (hn : n < sb.ninodes) (hm : Allocated sb D m) :
    (D m).byteAt (Fs.setDinode sb c n x) k = (D m).byteAt c k :=
  byteAt_congr (fun _ => Or.inl (ho.ref_setDinode hl hn hm)) fun _ _ ht =>
    setDinode_data hl hn (ho.ref_data hm ht).1

theorem byteAt_congr_addrs (h : y.addrs = x.addrs) : y.byteAt c k = x.byteAt c k := by
  have hb : y.block c (k / BSIZE) = x.block c (k / BSIZE) := block_congr fun _ => ref_congr_addrs h
  rw [Dinode.byteAt, Dinode.byteAt, hb]

/-- What `writei` leaves: the first `tot` bytes of `src` are in the file at `off`, and the inode is on disk. -/
structure Stored (sb : Superblock) (ip : Ip) (src : ℕ → Option Byte) (off tot e : ℕ) (s s' : State)
    (D D' : ℕ → Dinode) : Prop where
  entry : s'.inode = update s.inode ip { s.inode ip with d := D' (s.inode ip).inum }
  inode : ∃ f, D' = update D (s.inode ip).inum { D (s.inode ip).inum with
    addrs := f, size := BitVec.ofNat 32 (max (D (s.inode ip).inum).size.toNat (off + tot)) }
  size : (D' (s.inode ip).inum).size.toNat = max (D (s.inode ip).inum).size.toNat (off + tot)
  disk : ∀ m < sb.ninodes, dinode sb s'.cache m =
    if m = (s.inode ip).inum then D' (s.inode ip).inum else dinode sb s.cache m
  ref : ∀ m t, Allocated sb D m → (D m).ref s.cache t ≠ 0 → (D' m).ref s'.cache t = (D m).ref s.cache t
  other : ∀ m, Allocated sb D m → m ≠ (s.inode ip).inum → ∀ k, (D' m).byteAt s'.cache k = (D m).byteAt s.cache k
  bytes : ∀ k, (k < off + tot ∨ off + e ≤ k) → (D' (s.inode ip).inum).byteAt s'.cache k =
    if off ≤ k ∧ k < off + tot then (src (k - off)).getD 0 else (D (s.inode ip).inum).byteAt s.cache k
  filled : (D' (s.inode ip).inum).Filled s'.cache
  readable : ∀ i < tot, (src i).isSome = true

/-- The end of `writei`: the size is brought up to date and the inode written. -/
theorem LoopDone.finish (hl : Layout sb) {e : ℕ}
    (h : LoopDone sb ip src off n tot e s₀ s D₀ D F) (hend : off + n ≤ MAXFILE * BSIZE)
    (hf : (D₀ (s₀.inode ip).inum).Filled s₀.cache) (hi : s'.inode = update s.inode ip { s.inode ip with d := y })
    (hy : y = { D (s₀.inode ip).inum with size := BitVec.ofNat 32 (max (D₀ (s₀.inode ip).inum).size.toNat (off + tot)) })
    (hc : s'.cache = Fs.setDinode sb s.cache (s₀.inode ip).inum y) :
    ∃ D', View sb s' ip D' ∧ Owned sb s'.cache D' F ∧ Stored sb ip src off tot e s₀ s' D₀ D' := by
  have hw := h.written
  have hinum := hw.inum
  have halloc : Allocated sb D (s₀.inode ip).inum := hinum ▸ h.view.alloc
  have hsize : y.size.toNat = max (D₀ (s₀.inode ip).inum).size.toNat (off + tot) := by
    have h1 := hf.size_le
    have h2 := h.tot_le
    rw [hy, BitVec.toNat_ofNat, Nat.mod_eq_of_lt]
    unfold MAXFILE NINDIRECT NDIRECT BSIZE at *
    omega
  have haddrs : y.addrs = (D (s₀.inode ip).inum).addrs := by rw [hy]
  have htype : y.type = 0 ↔ (D (s₀.inode ip).inum).type = 0 := by rw [hy]
  have hown : Owned sb s'.cache (update D (s₀.inode ip).inum y) F := by
    rw [hc]
    exact (h.owned.setInode haddrs htype).setDinode hl halloc.1
  have href : ∀ m, Allocated sb D m → ∀ t,
      (update D (s₀.inode ip).inum y m).ref s'.cache t = (D m).ref s.cache t := by
    intro m hm t
    rw [hc, ← h.owned.ref_setDinode hl halloc.1 hm]
    by_cases hmn : m = (s₀.inode ip).inum
    · subst hmn
      rw [update_self, ref_congr_addrs haddrs]
    · rw [update_of_ne hmn]
  have hbyte : ∀ m, Allocated sb D m → ∀ k,
      (update D (s₀.inode ip).inum y m).byteAt s'.cache k = (D m).byteAt s.cache k := by
    intro m hm k
    rw [hc, ← h.owned.byteAt_setDinode hl halloc.1 hm]
    by_cases hmn : m = (s₀.inode ip).inum
    · subst hmn
      rw [update_self, byteAt_congr_addrs haddrs]
    · rw [update_of_ne hmn]
  refine ⟨update D (s₀.inode ip).inum y, ?_, hown, ?_⟩
  · have hinum' : (s'.inode ip).inum = (s₀.inode ip).inum := by rw [hi, update_self, hinum]
    constructor
    · rw [hinum']
      exact (allocated_update htype).mpr halloc
    · rw [hinum', update_self, hi, update_self]
    · intro m hm hmn
      rw [hinum'] at hmn
      rw [hc, dinode_setDinode, if_neg hmn, update_of_ne hmn]
      exact h.view.disk m hm (hinum ▸ hmn)
  · obtain ⟨f, hDf⟩ := hw.inode
    obtain ⟨x, hx⟩ := hw.entry
    constructor
    · rw [update_self, hi, hx, update_idem, update_self]
    · refine ⟨f, ?_⟩
      rw [hy, hDf, update_idem, update_self]
    · rw [update_self]
      exact hsize
    · intro m hm
      rw [hc, dinode_setDinode, update_self]
      split
      · rfl
      · exact hw.disk m hm
    · exact fun m t hm ht => (href m (hw.allocated.mpr hm) t).trans (hw.ref m t hm ht)
    · exact fun m hm hmn k => (hbyte m (hw.allocated.mpr hm) k).trans (hw.other m hm hmn k)
    · exact fun k hk => (hbyte _ halloc k).trans (hw.bytes k hk)
    · intro bn hbn
      rw [update_self, hsize] at hbn
      rw [block_congr fun t => href _ halloc t]
      exact hw.filled bn hbn
    · exact hw.readable

theorem Tearing.writeInode (hl : Layout sb) {first e : ℕ} {s₁ : State}
    (h : Tearing sb ip src off n first tot e s s₁) (hn : k < sb.ninodes)
    (hc : s'.cache = update s₁.cache (sb.IBLOCK k) d) (hst : s'.store = update s₁.store (sb.IBLOCK k) d) :
    Tearing sb ip src off n first tot e s s' where
  clean hno := by
    obtain ⟨he, hsync⟩ := h.clean hno
    exact ⟨he, fun hs => by rw [hc, hst, hsync hs]⟩
  torn ht := by
    obtain ⟨hlt, hdiff⟩ := h.torn ht
    refine ⟨hlt, fun hs => ?_⟩
    obtain ⟨b, hb, hne⟩ := hdiff hs
    have hbne : b ≠ sb.IBLOCK k := (hl.iblock_lt_nmeta hn).trans_le hb |>.ne'
    exact ⟨b, hb, by rwa [hc, hst, update_of_ne hbne, update_of_ne hbne]⟩

/-- `writei` has written `tot` bytes. -/
structure WriteDone (sb : Superblock) (ip : Ip) (src : ℕ → Option Byte) (off n tot e : ℕ) (s s' : State)
    (D D' : ℕ → Dinode) (F : Set ℕ) : Prop where
  tot_le : tot ≤ n
  e_le : e ≤ n
  view : View sb s' ip D'
  owned : Owned sb s'.cache D' F
  stored : Stored sb ip src off tot e s s' D D'
  dirty : e = tot ∨ ∃ i < n, src i = none
  short : tot < n → Stuck sb s'.cache (D (s.inode ip).inum).size.toNat (off + tot) ∨ ∃ i < n, src i = none
  tearing : Tearing sb ip src off n (off / BSIZE) tot e s s'

/-- The branches of `writei` before its loop. -/
theorem writei_cases {Q : ℤ → State → Prop} (src : ℕ → Option Byte) (off n : BitVec 32)
    (hbad : ((s.inode ip).d.size.toNat < off.toNat ∨ MAXFILE * BSIZE < off.toNat + n.toNat) → Q (-1) s)
    (hok : off.toNat ≤ (s.inode ip).d.size.toNat → off.toNat + n.toNat ≤ MAXFILE * BSIZE → wp (do
      let (tot, off') ← writeLoop sb ip src n.toNat n.toNat 0 off.toNat
      let s ← get
      if off' > (s.inode ip).d.size.toNat then setCopy ip fun x => { x with size := BitVec.ofNat 32 off' }
      else pure ()
      iupdate sb ip
      return (tot : ℤ)) Q E s) :
    wp (writei sb ip src off n) Q E s := by
  have hmax : (BitVec.ofNat 32 (MAXFILE * BSIZE)).toNat = MAXFILE * BSIZE := by decide
  have hlim : MAXFILE * BSIZE < 2 ^ 31 := by decide
  rw [writei, wp_bind, wp_get]
  split
  · next h =>
    refine hbad (h.imp BitVec.lt_def.mp fun h => ?_)
    have h' := BitVec.lt_def.mp h
    rw [BitVec.toNat_add] at h'
    omega
  · next h =>
    obtain ⟨hoff, hsum⟩ := not_or.mp h
    have hsum' := BitVec.le_def.mp (BitVec.not_lt.mp hsum)
    have hadd : (off + n).toNat = off.toNat + n.toNat := by
      rw [BitVec.toNat_add] at hsum' ⊢
      omega
    split
    · next hgt =>
      have hgt' := BitVec.lt_def.mp hgt
      exact hbad (Or.inr (by omega))
    · next hgt =>
      have hle := BitVec.le_def.mp (BitVec.not_lt.mp hgt)
      exact hok (BitVec.le_def.mp (BitVec.not_lt.mp hoff)) (by omega)

theorem writei_spec (hl : Layout sb) (hv : View sb s ip D) (ho : Owned sb s.cache D F)
    (hf : (D (s.inode ip).inum).Filled s.cache) (src : ℕ → Option Byte) (off n : BitVec 32) :
    wp (writei sb ip src off n) (fun r s' =>
      (r = -1 ∧ s' = s ∧ ((D (s.inode ip).inum).size.toNat < off.toNat ∨ MAXFILE * BSIZE < off.toNat + n.toNat)) ∨
      (off.toNat ≤ (D (s.inode ip).inum).size.toNat ∧ off.toNat + n.toNat ≤ MAXFILE * BSIZE ∧
        ∃ (tot e : ℕ) (D' : ℕ → Dinode), r = tot ∧ WriteDone sb ip src off.toNat n.toNat tot e s s' D D' F)) E s := by
  have hlim : MAXFILE * BSIZE < 2 ^ 31 := by decide
  refine writei_cases src off n (fun hbad => Or.inl ⟨rfl, rfl, hv.copy ▸ hbad⟩) fun hoff hend => ?_
  rw [hv.copy] at hoff
  refine (writeLoop_spec hl hv hv ho (Written.start hf hoff) hend (Nat.zero_le _) (by omega)
    (fun _ => Or.inl rfl)).bind fun r s₁ ⟨hr, e, D₁, hdone, htear⟩ => ?_
  obtain ⟨tot, off'⟩ := r
  simp only at hr hdone htear ⊢
  subst hr
  rw [wp_bind, wp_get]
  have hinum := hdone.written.inum
  have hcopy : (s₁.inode ip).d = D₁ (s.inode ip).inum := hinum ▸ hdone.view.copy
  have hsize : (s₁.inode ip).d.size = (D (s.inode ip).inum).size := by
    obtain ⟨f, hf'⟩ := hdone.written.inode
    rw [hcopy, hf', update_self]
  -- both ways the inode that is written back has the larger of the two sizes
  have hfin : ∀ (s' : State) (y : Dinode), s'.inode = update s₁.inode ip { s₁.inode ip with d := y } →
      y = { D₁ (s.inode ip).inum with
        size := BitVec.ofNat 32 (max (D (s.inode ip).inum).size.toNat (off.toNat + tot)) } →
      s'.cache = Fs.setDinode sb s₁.cache (s.inode ip).inum y →
      s'.store = update s₁.store (sb.IBLOCK (s.inode ip).inum)
        (putDinode (s₁.cache (sb.IBLOCK (s.inode ip).inum)) ((s.inode ip).inum % IPB) y) →
      ∃ (t e : ℕ) (D' : ℕ → Dinode), (tot : ℤ) = t ∧
        WriteDone sb ip src off.toNat n.toNat t e s s' D D' F := by
    intro s' y hi hy hc hst
    obtain ⟨D', hv', ho', hstored⟩ := hdone.finish hl hend hf hi hy hc
    refine ⟨tot, e, D', rfl, hdone.tot_le, hdone.e_le, hv', ho', hstored, hdone.dirty, fun hlt =>
      (hdone.short hlt).imp_left fun hstuck => ⟨fun b hb => ?_, hstuck.edge, hstuck.size_le⟩,
      htear.writeInode hl hv.alloc.1 hc hst⟩
    rw [hc, marked_setDinode hl hv.alloc.1]
    exact hstuck.full b hb
  rw [hsize]
  split
  · next hlt =>
    refine wp_bind.mpr (setCopy_wp (wp_bind.mpr (iupdate_wp (Or.inr ⟨hoff, hend, ?_⟩))))
    refine hfin _ { (s₁.inode ip).d with size := BitVec.ofNat 32 (off.toNat + tot) } rfl ?_ ?_ ?_
    · rw [hcopy, max_eq_right (by omega)]
    · simp [hinum]
    · simp [State.writeInode, State.put, State.setEntry, hinum]
  · next hge =>
    refine wp_bind.mpr (iupdate_wp (Or.inr ⟨hoff, hend, ?_⟩))
    refine hfin _ (s₁.inode ip).d (update_eq_self ip s₁.inode).symm ?_ ?_ ?_
    · rw [max_eq_left (by omega), BitVec.ofNat_toNat, BitVec.setWidth_eq, ← hsize, hcopy]
    · simp [hinum]
    · simp [State.writeInode, State.put, hinum]

/-! ## The file as an array of bytes -/

/-- The inodes as the kernel sees them while `ip` is locked. -/
def State.current (sb : Superblock) (s : State) (ip : Ip) : ℕ → Dinode :=
  update (dinode sb s.cache) (s.inode ip).inum (s.inode ip).d

theorem State.current_view (hlt : (s.inode ip).inum < sb.ninodes) (ht : (s.inode ip).d.type ≠ 0) :
    View sb s ip (s.current sb ip) where
  alloc := ⟨hlt, by rwa [State.current, update_self]⟩
  copy := by rw [State.current, update_self]
  disk n _ hne := by rw [State.current, update_of_ne hne]

theorem readi_slice (hl : Layout sb) (hv : View sb s ip D) (ho : Owned sb s.cache D F)
    (hf : (D (s.inode ip).inum).Filled s.cache) {off n : BitVec 32}
    (hend : off.toNat + n.toNat ≤ (D (s.inode ip).inum).size.toNat) :
    readi sb ip (fun _ => true) off n s =
      .ok (((n.toNat : ℤ), (D (s.inode ip).inum).slice s.cache off.toNat n.toNat), s) := by
  have hlt := (D (s.inode ip).inum).size.isLt
  obtain ⟨r, s', hrun, rfl, hr⟩ := (readi_wp hl hv ho hf (fun _ => true) off n).exists_ok
  rw [hrun]
  rcases hr with ⟨_, hbad | hbad⟩ | ⟨_, _, l, hl', hr | ⟨_, i, _, hi⟩⟩
  · have hb := BitVec.lt_def.mp hbad
    omega
  · have hb := BitVec.lt_def.mp hbad
    rw [BitVec.toNat_add] at hb
    omega
  · rw [hr, show l = n.toNat by omega]
  · cases hi

def smallSb : Superblock := ⟨8, 4, 2, 2, 3⟩

def emptyFile : Dinode := { Dinode.zero with type := 2, nlink := 1 }

def smallDisk (b : ℕ) : Data :=
  if b = 2 then putDinode (fun _ => 0) 1 emptyFile else if b = 3 then fun i => if i = 0 then 15 else 0 else fun _ => 0

def emptyFileState : State where
  cache := smallDisk
  store := smallDisk
  log := []
  inode ip := if ip = ⟨0, NINODE_pos⟩ then ⟨1, 1, true, emptyFile⟩ else ⟨0, 0, false, Dinode.zero⟩

theorem smallSb_layout : Layout smallSb := by constructor <;> decide

theorem emptyFile_owned : Owned smallSb smallDisk (emptyFileState.current smallSb ⟨0, by decide⟩) ∅ :=
  firstBlocks_owned (f := fun _ => 0) (by decide) (by decide) (by decide) (by decide) (by decide)

end Xv6Boot.Kernel.Fs
