import Xv6Boot.Kernel.SharedWrite

/-! # The blocks a chunk of `filewrite` logs

A chunk touches at most four blocks of the file, and only the first of four can lie in a block that was there before.
Each new block costs its bit of the free map; besides these there are the indirect block, its bit and the inode.
-/

namespace Xv6Boot.Kernel.Fs
open Function Program

variable {sb : Superblock} {s s' s'' : State} {ip : Ip} {D : ℕ → Dinode} {F : Set ℕ} {bn tot off n fuel : ℕ}
  {a : BitVec 32} {E : String → Prop}

/-- From `s` to `s'` only blocks of `L` are logged. -/
def Logs (s s' : State) (L : Finset ℕ) : Prop := ∃ w, s'.log = s.log ++ w ∧ w.toFinset ⊆ L

namespace Logs
variable {L L' : Finset ℕ}

theorem refl (s : State) (L : Finset ℕ) : Logs s s L := ⟨[], (List.append_nil _).symm, by simp⟩

theorem trans (h : Logs s s' L) (h' : Logs s' s'' L') : Logs s s'' (L ∪ L') := by
  obtain ⟨w, hw, hsub⟩ := h
  obtain ⟨w', hw', hsub'⟩ := h'
  refine ⟨w ++ w', by rw [hw', hw, List.append_assoc], ?_⟩
  rw [List.toFinset_append]
  exact Finset.union_subset_union hsub hsub'

theorem mono (h : Logs s s' L) (hsub : L ⊆ L') : Logs s s' L' := by
  obtain ⟨w, hw, hw'⟩ := h
  exact ⟨w, hw, hw'.trans hsub⟩

theorem one {b : ℕ} (h : s'.log = s.log ++ [b]) (hb : b ∈ L) : Logs s s' L := by
  refine ⟨[b], h, ?_⟩
  simpa using hb

end Logs

def Dinode.indirectBlock (x : Dinode) : Finset ℕ :=
  if x.addrs indirect = 0 then ∅ else {(x.addrs indirect).toNat}

theorem indirectBlock_card (x : Dinode) : x.indirectBlock.card ≤ 1 := by
  rw [Dinode.indirectBlock]
  split <;> simp

theorem mem_indirectBlock {x : Dinode} (h : x.addrs indirect = a) (ha : a ≠ 0) : a.toNat ∈ x.indirectBlock := by
  rw [Dinode.indirectBlock, h, if_neg ha, Finset.mem_singleton]

def Dinode.noIndirect (x : Dinode) : ℕ := if x.addrs indirect = 0 then 1 else 0

theorem BmapStep.logs (hl : Layout sb) (ho : Owned sb s.cache D F) (h : BmapStep sb ip bn s a s') :
    ∃ X : Finset ℕ, Logs s s' (X ∪ (s'.inode ip).d.indirectBlock) ∧ (a ≠ 0 → a.toNat ∈ X) ∧
      X.card + (s'.inode ip).d.noIndirect ≤
        (if (s.inode ip).d.block s.cache bn = 0 then 2 else 1) + (s.inode ip).d.noIndirect ∧
      (s.inode ip).d.indirectBlock ⊆ (s'.inode ip).d.indirectBlock := by
  have hpair : ∀ x y : ℕ, ({x, y} : Finset ℕ).card ≤ 2 := fun x y => Finset.card_le_two
  cases h with
  | found hne =>
    refine ⟨{((s.inode ip).d.block s.cache bn).toNat}, Logs.refl _ _, fun _ => Finset.mem_singleton_self _, ?_, subset_rfl⟩
    rw [if_neg hne, Finset.card_singleton]
  | full h0 hf =>
    refine ⟨∅, Logs.refl _ _, fun ha => absurd rfl ha, ?_, subset_rfl⟩
    rw [Finset.card_empty]
    omega
  | @addr b hi h0 hb hm =>
    have hind : ((s.addAddr sb ip ⟨bn, Nat.lt_succ_of_lt hi⟩ b).inode ip).d.addrs indirect =
        (s.inode ip).d.addrs indirect := by
      have hstep : BmapStep sb ip bn s _ _ := .addr hi h0 hb hm
      rcases hstep.indirect_eq with he | ⟨_, hge⟩
      · exact he
      · omega
    refine ⟨{sb.BBLOCK b, b}, ⟨[sb.BBLOCK b, b], ?_, ?_⟩, fun _ => ?_, ?_, ?_⟩
    · simp [State.addAddr, State.setEntry, State.allocBlock, State.put]
    · simp only [List.toFinset_cons, List.toFinset_nil]
      exact Finset.subset_union_left
    · rw [hl.ofNat_toNat hb]
      simp
    · have hcard := hpair (sb.BBLOCK b) b
      rw [if_pos h0, Dinode.noIndirect, Dinode.noIndirect, hind]
      omega
    · rw [Dinode.indirectBlock, Dinode.indirectBlock, hind]
  | @entry b j hslot ha h0 hb hm =>
    refine ⟨{sb.BBLOCK b, b}, ⟨[sb.BBLOCK b, b, ((s.inode ip).d.addrs indirect).toNat], ?_, ?_⟩, fun _ => ?_, ?_,
      subset_rfl⟩
    · simp [State.addEntry, State.allocBlock, State.put]
    · intro x hx
      simp only [List.mem_toFinset, List.mem_cons, List.not_mem_nil, or_false] at hx
      rw [Finset.mem_union]
      rcases hx with rfl | rfl | rfl
      · simp
      · simp
      · exact Or.inr (mem_indirectBlock rfl ha)
    · rw [hl.ofNat_toNat hb]
      simp
    · have hcard := hpair (sb.BBLOCK b) b
      rw [if_pos h0, State.addEntry_inode]
      omega
  | @half b j hslot ha hb hm hf =>
    have hne := ho.ofNat_ne_zero hl hb hm
    refine ⟨{sb.BBLOCK b}, ⟨[sb.BBLOCK b, b], ?_, ?_⟩, fun h => absurd rfl h, ?_, ?_⟩
    · simp [State.addAddr, State.setEntry, State.allocBlock, State.put]
    · have hmem := mem_indirectBlock (x := ((s.addAddr sb ip indirect b).inode ip).d) State.addAddr_addrs hne
      rw [hl.ofNat_toNat hb] at hmem
      intro x hx
      simp only [List.mem_toFinset, List.mem_cons, List.not_mem_nil, or_false] at hx
      rw [Finset.mem_union]
      rcases hx with rfl | rfl
      · simp
      · exact Or.inr hmem
    · have hblock : (s.inode ip).d.block s.cache bn = 0 := by rw [block_of_slot hslot, Dinode.ref, if_pos ha]
      rw [if_pos hblock, Finset.card_singleton, Dinode.noIndirect, State.addAddr_addrs, if_neg hne]
      omega
    · rw [Dinode.indirectBlock, if_pos ha]
      exact Finset.empty_subset _
  | @both b b' j hslot ha hb hm hb' hm' =>
    have hne := ho.ofNat_ne_zero hl hb hm
    refine ⟨{sb.BBLOCK b, sb.BBLOCK b', b'}, ⟨[sb.BBLOCK b, b, sb.BBLOCK b', b', (BitVec.ofNat 32 b).toNat], ?_, ?_⟩,
      fun _ => ?_, ?_, ?_⟩
    · simp [State.addEntry, State.addAddr, State.setEntry, State.allocBlock, State.put]
    · have hmem := mem_indirectBlock (x := ((s.addAddr sb ip indirect b).inode ip).d) State.addAddr_addrs hne
      rw [hl.ofNat_toNat hb] at hmem ⊢
      intro x hx
      simp only [List.mem_toFinset, List.mem_cons, List.not_mem_nil, or_false] at hx
      rw [Finset.mem_union, State.addEntry_inode]
      rcases hx with rfl | rfl | rfl | rfl | rfl
      · simp
      · exact Or.inr hmem
      · simp
      · simp
      · exact Or.inr hmem
    · rw [hl.ofNat_toNat hb']
      simp
    · have hcard : ({sb.BBLOCK b, sb.BBLOCK b', b'} : Finset ℕ).card ≤ 3 := Finset.card_le_three
      have hblock : (s.inode ip).d.block s.cache bn = 0 := by rw [block_of_slot hslot, Dinode.ref, if_pos ha]
      rw [if_pos hblock, State.addEntry_inode, Dinode.noIndirect, Dinode.noIndirect, State.addAddr_addrs, if_neg hne,
        if_pos ha]
      omega
    · rw [Dinode.indirectBlock, if_pos ha]
      exact Finset.empty_subset _

/-- How many blocks `l` bytes at `o` lie in. -/
def touched (o l : ℕ) : ℕ := if l = 0 then 0 else (o + l - 1) / BSIZE - o / BSIZE + 1

theorem touched_step {o l m : ℕ} (hl : 0 < l) (hm : m = min l (BSIZE - o % BSIZE)) :
    touched o l = touched (o + m) (l - m) + 1 := by
  unfold touched BSIZE at *
  split <;> split <;> omega

/-- The blocks the loop of `writei` logs. A block that is there from the start saves the bit of the free map. -/
def LoopLogs (ip : Ip) (off n tot : ℕ) (s s' : State) : Prop :=
  ∃ X : Finset ℕ, Logs s s' (X ∪ (s'.inode ip).d.indirectBlock) ∧
    (s.inode ip).d.indirectBlock ⊆ (s'.inode ip).d.indirectBlock ∧
    X.card + (if tot < n ∧ (s.inode ip).d.block s.cache ((off + tot) / BSIZE) ≠ 0 then 1 else 0) ≤
      2 * touched (off + tot) (n - tot) + (s.inode ip).d.noIndirect

theorem writeLoop_logs (hl : Layout sb) {src : ℕ → Option Byte} (hv : View sb s ip D) (ho : Owned sb s.cache D F)
    (hend : off + n ≤ MAXFILE * BSIZE) (htot : tot ≤ n) (hfuel : n ≤ tot + fuel) :
    wp (writeLoop sb ip src n fuel tot (off + tot)) (fun _ s' => LoopLogs ip off n tot s s') E s := by
  have hnone : ∀ {s : State} {tot : ℕ}, ¬ tot < n → LoopLogs ip off n tot s s := by
    intro s tot hge
    refine ⟨∅, Logs.refl _ _, subset_rfl, ?_⟩
    rw [if_neg fun h => hge h.1, Finset.card_empty]
    exact Nat.zero_le _
  induction fuel generalizing s D tot with
  | zero => exact hnone (by omega)
  | succ fuel ih =>
    rw [writeLoop]
    split
    · next hlt =>
      have hbn : (off + tot) / BSIZE < MAXFILE := block_lt (by omega)
      refine ((bmap_wp hl hv ho hbn).and (bmap_step hl hv ho hbn)).bind fun a s₁ ha => ?_
      obtain ⟨⟨D₁, hmap⟩, hstep⟩ := ha
      obtain ⟨X, hlog, hmem, hcard, hsub⟩ := hstep.logs hl ho
      have hmod : (off + tot) % BSIZE < BSIZE := Nat.mod_lt _ (by decide)
      obtain ⟨m, hm⟩ : ∃ m, m = min (n - tot) (BSIZE - (off + tot) % BSIZE) := ⟨_, rfl⟩
      have htouch := touched_step (o := off + tot) (l := n - tot) (by omega) hm
      -- what this turn costs
      have hcost : X.card + (s₁.inode ip).d.noIndirect +
          (if tot < n ∧ (s.inode ip).d.block s.cache ((off + tot) / BSIZE) ≠ 0 then 1 else 0) ≤
          2 + (s.inode ip).d.noIndirect := by
        by_cases h0 : (s.inode ip).d.block s.cache ((off + tot) / BSIZE) = 0
        · rw [if_pos h0] at hcard
          rw [if_neg fun h => h.2 h0]
          omega
        · rw [if_neg h0] at hcard
          rw [if_pos ⟨hlt, h0⟩]
          omega
      split
      · exact ⟨X, hlog, hsub, by omega⟩
      · next ha =>
        have hblock : (D₁ (s₁.inode ip).inum).block s₁.cache ((off + tot) / BSIZE) = a := by
          rw [hmap.grown.inum]
          exact hmap.block
        have hnext : ∀ (s₂ : State) (d : Data), s₂.inode = s₁.inode → s₂.cache = update s₁.cache a.toNat d →
            s₂.log = s₁.log ++ [a.toNat] →
            wp (writeLoop sb ip src n fuel (tot + m) (off + (tot + m))) (fun _ s' => LoopLogs ip off n tot s s') E s₂ := by
          intro s₂ d hinode hcache hlog₂
          obtain ⟨hv', ho', -⟩ := hmap.view.store s₂ hl hmap.owned (hblock.symm ▸ ha) hinode (hblock.symm ▸ hcache)
          have hone : Logs s₁ s₂ X := Logs.one hlog₂ (hmem ha)
          refine (ih hv' ho' (by omega) (by omega)).mono fun r s' hY => ?_
          obtain ⟨Y, hlogY, hsubY, hcardY⟩ := hY
          rw [hinode] at hsubY hcardY
          refine ⟨X ∪ Y, ((hlog.trans hone).trans hlogY).mono ?_, hsub.trans hsubY, ?_⟩
          · intro b hb
            simp only [Finset.mem_union] at hb ⊢
            rcases hb with ((hb | hb) | hb) | hb | hb
            · exact Or.inl (Or.inl hb)
            · exact Or.inr (hsubY hb)
            · exact Or.inl (Or.inl hb)
            · exact Or.inl (Or.inr hb)
            · exact Or.inr hb
          · have hunion := Finset.card_union_le X Y
            have hrest : n - tot - m = n - (tot + m) := by omega
            rw [Nat.add_assoc, hrest] at htouch
            omega
        simp only [bread, setData, wp_bind, wp_get, wp_pure, wp_modify]
        rw [← hm]
        split
        · exact ⟨X, hlog, hsub, by omega⟩
        · simp only [logWrite, wp_bind, wp_modify]
          rw [Nat.add_assoc]
          exact hnext _ _ rfl rfl rfl
    · next hge => exact hnone hge

theorem writei_logs (hl : Layout sb) (hv : View sb s ip D) (ho : Owned sb s.cache D F)
    (hf : (D (s.inode ip).inum).Filled s.cache) (src : ℕ → Option Byte) (off n : BitVec 32) :
    wp (writei sb ip src off n) (fun _ s' => ∃ L : Finset ℕ, Logs s s' L ∧
      L.card + (if 0 < n.toNat ∧ off.toNat % BSIZE ≠ 0 then 1 else 0) ≤ 2 * touched off.toNat n.toNat + 3) E s := by
  refine writei_cases src off n (fun _ => ⟨∅, Logs.refl _ _, ?_⟩) fun hoff hend => ?_
  · rw [Finset.card_empty]
    split <;> omega
  rw [hv.copy] at hoff
  refine (writeLoop_logs hl hv ho hend (Nat.zero_le _) (by omega)).bind fun r s₁ hX => ?_
  obtain ⟨X, hlog, _, hcard⟩ := hX
  rw [wp_bind, wp_get]
  -- the place is in a block below the size
  have hbonus : (if 0 < n.toNat ∧ off.toNat % BSIZE ≠ 0 then 1 else 0) ≤
      if 0 < n.toNat ∧ (s.inode ip).d.block s.cache (off.toNat / BSIZE) ≠ 0 then 1 else 0 := by
    by_cases hmid : 0 < n.toNat ∧ off.toNat % BSIZE ≠ 0
    · have hlt : off.toNat / BSIZE * BSIZE < (D (s.inode ip).inum).size.toNat := by
        have := hmid.2
        unfold BSIZE at *
        omega
      have hne : (s.inode ip).d.block s.cache (off.toNat / BSIZE) ≠ 0 := by
        rw [hv.copy]
        exact hf _ hlt
      rw [if_pos hmid, if_pos ⟨hmid.1, hne⟩]
    · rw [if_neg hmid]
      exact Nat.zero_le _
  have hind := indirectBlock_card (s₁.inode ip).d
  have hno : (s.inode ip).d.noIndirect ≤ 1 := by
    rw [Dinode.noIndirect]
    split <;> omega
  rw [Nat.sub_zero, Nat.add_zero] at hcard
  have hfin : ∀ (s' : State) (b : ℕ), s'.log = s₁.log ++ [b] → ∃ L : Finset ℕ, Logs s s' L ∧
      L.card + (if 0 < n.toNat ∧ off.toNat % BSIZE ≠ 0 then 1 else 0) ≤ 2 * touched off.toNat n.toNat + 3 := by
    intro s' b hb
    have hone : Logs s₁ s' {b} := Logs.one hb (Finset.mem_singleton_self b)
    refine ⟨_, hlog.trans hone, ?_⟩
    have h1 := Finset.card_union_le (X ∪ (s₁.inode ip).d.indirectBlock) {b}
    have h2 := Finset.card_union_le X (s₁.inode ip).d.indirectBlock
    rw [Finset.card_singleton] at h1
    omega
  split
  · exact wp_bind.mpr (setCopy_wp (wp_bind.mpr (iupdate_wp (hfin _ _ rfl))))
  · exact wp_bind.mpr (iupdate_wp (hfin _ _ rfl))

end Xv6Boot.Kernel.Fs

/-! ## Every window of `filewrite` -/

namespace Xv6Boot.Kernel.SharedWrite
open Function Program Transition Fs Log
variable {P : Type} [DecidableEq P] {sb : Superblock} {ip : Ip} {F : Set ℕ} {s₀ s s' : Shared P} {es : List (Event P)}
  {p : P}

/-- The file is open, has all its blocks below its size, and the offset is not beyond it. -/
structure Steady (sb : Superblock) (ip : Ip) (F : Set ℕ) (s : Shared P) : Prop where
  ref : 0 < (s.fs.inode ip).ref
  valid : (s.fs.inode ip).valid = true
  lt : (s.fs.inode ip).inum < sb.ninodes
  type : (s.fs.inode ip).d.type ≠ 0
  owned : Owned sb s.fs.cache (s.fs.current sb ip) F
  filled : (s.fs.inode ip).d.Filled s.fs.cache
  off : s.off ≤ (s.fs.inode ip).d.size

omit [DecidableEq P] in
theorem writeChunk_window (hl : Layout sb) (h : Steady sb ip F s) (src : ℕ → Option Byte) {n : BitVec 32}
    (hn : n.toNat ≤ 3 * BSIZE) {r : ℤ} {fs : State} (hrun : writeChunk sb ip src s.off n s.fs = .ok (r, fs))
    (off : BitVec 32) (hoff : off = if r > 0 then s.off + BitVec.ofInt 32 r else s.off) :
    (∃ w, fs.log = s.fs.log ++ w ∧ w.toFinset.card ≤ MAXOPBLOCKS) ∧ Steady sb ip F { s with fs := fs, off := off } := by
  have hv := State.current_view h.lt h.type
  have hcur : s.fs.current sb ip (s.fs.inode ip).inum = (s.fs.inode ip).d := hv.copy.symm
  have hf : (s.fs.current sb ip (s.fs.inode ip).inum).Filled s.fs.cache := hcur ▸ h.filled
  have hlim : MAXFILE * BSIZE < 2 ^ 31 := by decide
  have hspec : wp (writeChunk sb ip src s.off n) (fun r fs =>
      (∃ L : Finset ℕ, Logs s.fs fs L ∧
        L.card + (if 0 < n.toNat ∧ s.off.toNat % BSIZE ≠ 0 then 1 else 0) ≤ 2 * touched s.off.toNat n.toNat + 3) ∧
      ((r = -1 ∧ fs = s.fs) ∨ s.off.toNat + n.toNat ≤ MAXFILE * BSIZE ∧ ∃ tot e D', r = ((tot : ℕ) : ℤ) ∧
        WriteDone sb ip src s.off.toNat n.toNat tot e s.fs fs (s.fs.current sb ip) D' F)) (fun _ => True) s.fs := by
    rw [writeChunk, ilock]
    have href : ¬ (s.fs.inode ip).ref < 1 := not_lt.mpr h.ref
    simp only [wp_bind, wp_get, href, h.valid, if_false, if_true, wp_pure]
    refine ((writei_logs hl hv h.owned hf src s.off n).and (writei_spec hl hv h.owned hf src s.off n)).mono
      fun r s₁ hr => ?_
    obtain ⟨hlog, hpost⟩ := hr
    have hpost' : (r = -1 ∧ s₁ = s.fs) ∨ s.off.toNat + n.toNat ≤ MAXFILE * BSIZE ∧ ∃ tot e D', r = ((tot : ℕ) : ℤ) ∧
        WriteDone sb ip src s.off.toNat n.toNat tot e s.fs s₁ (s.fs.current sb ip) D' F := by
      rcases hpost with ⟨hr, hs, _⟩ | ⟨_, hend, hdone⟩
      · exact Or.inl ⟨hr, hs⟩
      · exact Or.inr ⟨hend, hdone⟩
    rw [iunlock]
    simp only [wp_bind, wp_get]
    split
    · exact trivial
    · exact ⟨hlog, hpost'⟩
  obtain ⟨⟨L, ⟨w, hw, hsub⟩, hcard⟩, hpost⟩ := hspec.of_ok hrun
  refine ⟨⟨w, hw, (Finset.card_le_card hsub).trans ?_⟩, ?_⟩
  · unfold touched MAXOPBLOCKS at *
    by_cases hmid : 0 < n.toNat ∧ s.off.toNat % BSIZE ≠ 0
    · rw [if_pos hmid] at hcard
      unfold BSIZE at *
      split at hcard <;> omega
    · rw [if_neg hmid] at hcard
      unfold BSIZE at *
      split at hcard <;> omega
  · rcases hpost with ⟨rfl, rfl⟩ | ⟨hend, tot, e, D', rfl, hdone⟩
    · rw [if_neg (by decide)] at hoff
      subst hoff
      exact h
    · have hst := hdone.stored
      have hent : fs.inode ip = { s.fs.inode ip with d := D' (s.fs.inode ip).inum } := by rw [hst.entry, update_self]
      have hinum : (fs.inode ip).inum = (s.fs.inode ip).inum := by rw [hent]
      have hcopy : (fs.inode ip).d = D' (s.fs.inode ip).inum := by rw [hent]
      have htype : (fs.inode ip).d.type = (s.fs.inode ip).d.type := by
        obtain ⟨f, hD⟩ := hst.inode
        rw [hcopy, hD, update_self, hcur]
      refine ⟨by rw [hent]; exact h.ref, by rw [hent]; exact h.valid, by rw [hinum]; exact h.lt, by rw [htype]; exact
        h.type,
        hdone.owned.congr_inodes fun m hm => ?_, by rw [hcopy]; exact hst.filled, ?_⟩
      · by_cases hmn : m = (s.fs.inode ip).inum
        · rw [State.current, hinum, hmn, update_self, hcopy]
        · rw [State.current, hinum, update_of_ne hmn]
          exact hdone.view.disk m hm (hinum ▸ hmn)
      · have hle := hdone.tot_le
        have hsize := hst.size
        have hold := BitVec.le_def.mp h.off
        rw [hcur] at hsize
        rw [BitVec.le_def, hcopy, hsize, hoff]
        split
        · have hnat : (s.off + BitVec.ofInt 32 tot).toNat = s.off.toNat + tot := by
            rw [BitVec.ofInt_natCast, BitVec.toNat_add, BitVec.toNat_ofNat]
            omega
          rw [hnat]
          exact le_max_right _ _
        · exact hold.trans (le_max_left _ _)

theorem step_chunk_cases {e : Event P} (hs : SharedWrite.step sb ip s e = .next s') :
    (s'.fs = s.fs ∧ s'.off = s.off) ∨ ∃ (src : ℕ → Option Byte) (n : BitVec 32) (r : ℤ), n.toNat ≤ 3 * BSIZE ∧
      writeChunk sb ip src s.off n s.fs = .ok (r, s'.fs) ∧ s'.off = if r > 0 then s.off + BitVec.ofInt 32 r else s.off := by
  cases e with
  | call p req =>
    simp only [SharedWrite.step] at hs
    split at hs
    · cases hs
      exact Or.inl ⟨rfl, rfl⟩
    · cases hs
  | ret p =>
    simp only [SharedWrite.step] at hs
    split at hs
    · cases hs
    · split at hs
      · cases hs
      · cases hs
        exact Or.inl ⟨rfl, rfl⟩
  | chunk p =>
    simp only [SharedWrite.step] at hs
    split at hs
    · cases hs
    · next req i hw =>
      split at hs
      · next hi =>
        have hmax : maxChunk = 3072 := rfl
        have hle : (BitVec.ofInt 32 (min (req.n - i) maxChunk)).toNat ≤ 3 * BSIZE := by
          rw [BitVec.toNat_ofInt]
          unfold BSIZE
          omega
        split at hs
        · cases hs
        · next r fs hrun =>
          split at hs <;> cases hs <;> exact Or.inr ⟨_, _, r, hle, hrun, rfl⟩
      · cases hs

theorem Steady.step (hl : Layout sb) (h : Steady sb ip F s) {e : Event P} (hs : SharedWrite.step sb ip s e = .next s') :
    Steady sb ip F s' := by
  rcases step_chunk_cases hs with ⟨hfs, hoff⟩ | ⟨src, n, r, hn, hrun, hoff⟩
  · obtain ⟨href, hvalid, hlt, htype, howned, hfilled, hle⟩ := h
    exact ⟨hfs ▸ href, hfs ▸ hvalid, hfs ▸ hlt, hfs ▸ htype, hfs ▸ howned, hfs ▸ hfilled, by rwa [hfs, hoff]⟩
  · obtain ⟨href, hvalid, hlt, htype, howned, hfilled, hle⟩ := (writeChunk_window hl h src hn hrun s'.off hoff).2
    exact ⟨href, hvalid, hlt, htype, howned, hfilled, hle⟩

/-- Each transaction of `filewrite` logs at most `MAXOPBLOCKS` blocks, whatever the size of the disk, the length of
the request and the other writers of the file. -/
theorem filewrite_window_logs (hl : Layout sb) (h0 : Steady sb ip F s₀)
    (h : Run (SharedWrite.step sb ip) anyAction s₀ es s) (hs : SharedWrite.step sb ip s (.chunk p) = .next s') :
    ∃ w, s'.fs.log = s.fs.log ++ w ∧ w.toFinset.card ≤ MAXOPBLOCKS := by
  have hsteady : Steady sb ip F s := Run.stateInvariant h h0 fun _ _ _ hinv _ hstep => hinv.step hl hstep
  rcases step_chunk_cases hs with ⟨hfs, -⟩ | ⟨src, n, r, hn, hrun, hoff⟩
  · exact ⟨[], by rw [hfs, List.append_nil], by decide⟩
  · exact (writeChunk_window hl hsteady src hn hrun s'.off hoff).1

theorem twoWriters_steady : Steady smallSb firstInode ∅ twoWriters where
  ref := by decide
  valid := rfl
  lt := by decide
  type := by decide
  owned := emptyFile_owned
  filled bn hbn := absurd hbn (Nat.not_lt_zero _)
  off := by decide

def oneRequest : Shared Bool :=
  { twoWriters with writing := update twoWriters.writing true (some (⟨fun _ => some 7, 2⟩, 0)) }

theorem oneRequest_window_logs : ∃ s', SharedWrite.step smallSb firstInode oneRequest (.chunk true) = .next s' ∧
    s'.off = 2 ∧ ∃ w, s'.fs.log = oneRequest.fs.log ++ w ∧ w.toFinset.card ≤ MAXOPBLOCKS := by
  have hcheck : (SharedWrite.step smallSb firstInode oneRequest (.chunk true)).check (fun s => decide (s.off = 2)) =
    true := by
    decide +kernel
  obtain ⟨s', hstep, hoff⟩ := Outcome.next_of_check hcheck
  have hrun : Run (SharedWrite.step smallSb firstInode) anyAction twoWriters [.call true ⟨fun _ => some 7, 2⟩] oneRequest :=
    Run.nil.snoc trivial rfl
  exact ⟨s', hstep, of_decide_eq_true hoff, filewrite_window_logs smallSb_layout twoWriters_steady hrun hstep⟩

end Xv6Boot.Kernel.SharedWrite
