import Xv6Boot.Kernel.FsAlloc

/-! # What `bmap` can do, and how many blocks it needs

`BmapStep` lists the ways `bmap` ends. From it follow the number of free blocks it takes, the blocks of the file it
leaves alone, and that it changes no cached block without logging it.
-/

namespace Xv6Boot.Kernel.Fs
open Function Program

variable {sb : Superblock} {s s' : State} {ip : Ip} {c : ℕ → Data} {D : ℕ → Dinode} {F : Set ℕ}
  {b bn k : ℕ} {x : Dinode} {a : BitVec 32} {E : String → Prop}

/-! ## Free blocks -/

def freeBlocks (sb : Superblock) (c : ℕ → Data) : ℕ := ((Finset.range sb.size).filter fun b => marked sb c b = false).card

theorem freeBlocks_eq_zero : freeBlocks sb c = 0 ↔ Full sb c := by
  rw [freeBlocks, Finset.card_eq_zero, Finset.filter_eq_empty_iff]
  simp [Full]

theorem freeBlocks_pos (hb : b < sb.size) (hm : marked sb c b = false) : 0 < freeBlocks sb c :=
  Finset.card_pos.mpr ⟨b, Finset.mem_filter.mpr ⟨Finset.mem_range.mpr hb, hm⟩⟩

theorem freeBlocks_mark {c' : ℕ → Data} (hb : b < sb.size) (hm : marked sb c b = false)
    (h : ∀ k < sb.size, marked sb c' k = (marked sb c k || decide (k = b))) :
    freeBlocks sb c' + 1 = freeBlocks sb c := by
  have hmem : b ∈ (Finset.range sb.size).filter fun k => marked sb c k = false :=
    Finset.mem_filter.mpr ⟨Finset.mem_range.mpr hb, hm⟩
  have herase : ((Finset.range sb.size).filter fun k => marked sb c' k = false) =
      ((Finset.range sb.size).filter fun k => marked sb c k = false).erase b := by
    ext k
    simp only [Finset.mem_filter, Finset.mem_range, Finset.mem_erase]
    constructor
    · rintro ⟨hk, hk'⟩
      rw [h k hk] at hk'
      simp only [Bool.or_eq_false_iff, decide_eq_false_iff_not] at hk'
      exact ⟨hk'.2, hk, hk'.1⟩
    · rintro ⟨hne, hk, hk'⟩
      refine ⟨hk, ?_⟩
      rw [h k hk, hk', decide_eq_false hne, Bool.or_false]
  rw [freeBlocks, freeBlocks, herase]
  exact Finset.card_erase_add_one hmem

theorem Owned.marked_alloc (hl : Layout sb) (ho : Owned sb c D F) (hm : marked sb c b = false) (hk : k < sb.size) :
    marked sb (update (mark sb c b) b fun _ => 0) k = (marked sb c k || decide (k = b)) := by
  rw [marked_data hl hk (ho.data_of_free hm), marked_mark]

theorem Owned.freeBlocks_alloc (hl : Layout sb) (ho : Owned sb c D F) (hb : b < sb.size) (hm : marked sb c b = false) :
    freeBlocks sb (update (mark sb c b) b fun _ => 0) + 1 = freeBlocks sb c :=
  freeBlocks_mark hb hm fun _ hk => ho.marked_alloc hl hm hk

theorem freeBlocks_data (hl : Layout sb) {d : Data} (hk : sb.nmeta ≤ k) :
    freeBlocks sb (update c k d) = freeBlocks sb c := by
  rw [freeBlocks, freeBlocks]
  congr 1
  refine Finset.filter_congr fun b hb => ?_
  rw [marked_data hl (Finset.mem_range.mp hb) hk]

/-! ## The ways `bmap` ends -/

inductive BmapStep (sb : Superblock) (ip : Ip) (bn : ℕ) (s : State) : BitVec 32 → State → Prop
  | found (hne : (s.inode ip).d.block s.cache bn ≠ 0) : BmapStep sb ip bn s ((s.inode ip).d.block s.cache bn) s
  | full (h0 : (s.inode ip).d.block s.cache bn = 0) (hf : Full sb s.cache) : BmapStep sb ip bn s 0 s
  | addr {b : ℕ} (hi : bn < NDIRECT) (h0 : (s.inode ip).d.block s.cache bn = 0) (hb : b < sb.size)
      (hm : marked sb s.cache b = false) :
      BmapStep sb ip bn s (BitVec.ofNat 32 b) (s.addAddr sb ip ⟨bn, Nat.lt_succ_of_lt hi⟩ b)
  | entry {b : ℕ} {j : Fin NINDIRECT} (hslot : fileSlot bn = some (.entry j)) (ha : (s.inode ip).d.addrs indirect ≠ 0)
      (h0 : (s.inode ip).d.block s.cache bn = 0) (hb : b < sb.size) (hm : marked sb s.cache b = false) :
      BmapStep sb ip bn s (BitVec.ofNat 32 b) (s.addEntry sb ((s.inode ip).d.addrs indirect) j b)
  | half {b : ℕ} {j : Fin NINDIRECT} (hslot : fileSlot bn = some (.entry j)) (ha : (s.inode ip).d.addrs indirect = 0)
      (hb : b < sb.size) (hm : marked sb s.cache b = false) (hf : Full sb (s.addAddr sb ip indirect b).cache) :
      BmapStep sb ip bn s 0 (s.addAddr sb ip indirect b)
  | both {b b' : ℕ} {j : Fin NINDIRECT} (hslot : fileSlot bn = some (.entry j)) (ha : (s.inode ip).d.addrs indirect = 0)
      (hb : b < sb.size) (hm : marked sb s.cache b = false) (hb' : b' < sb.size)
      (hm' : marked sb (s.addAddr sb ip indirect b).cache b' = false) :
      BmapStep sb ip bn s (BitVec.ofNat 32 b') ((s.addAddr sb ip indirect b).addEntry sb (BitVec.ofNat 32 b) j b')

theorem bmapEntry_step (hl : Layout sb) (ho : Owned sb s.cache D F) (j : Fin NINDIRECT) {Q : BitVec 32 → State → Prop}
    (hfound : word (s.cache a.toNat) j ≠ 0 → Q (word (s.cache a.toNat) j) s)
    (hfull : word (s.cache a.toNat) j = 0 → Full sb s.cache → Q 0 s)
    (hnew : word (s.cache a.toNat) j = 0 → ∀ b, b < sb.size → marked sb s.cache b = false → Q (BitVec.ofNat 32 b)
      (s.addEntry sb a j b)) :
    wp (do
        let d ← bread a.toNat
        orAlloc sb (word d j) fun w => do
          let d ← bread a.toNat
          setData a.toNat (setWord d j w)
          logWrite a.toNat) Q E s := by
  simp only [bread, wp_bind, wp_get, wp_pure]
  refine orAlloc_wp hl ho hfound hfull fun hz b hb hm => ?_
  simp only [setData, logWrite, wp_bind, wp_get, wp_pure, wp_modify, update_self]
  exact hnew hz b hb hm

theorem bmap_step (hl : Layout sb) (hv : View sb s ip D) (ho : Owned sb s.cache D F) (hbn : bn < MAXFILE) :
    wp (bmap sb ip bn) (BmapStep sb ip bn s) E s := by
  rw [bmap, wp_bind, wp_get]
  split
  · next h =>
    have hslot : fileSlot bn = some (.addr ⟨bn, Nat.lt_succ_of_lt h⟩) := by rw [fileSlot, dif_pos h]
    have hblock : (s.inode ip).d.block s.cache bn = (s.inode ip).d.addrs ⟨bn, Nat.lt_succ_of_lt h⟩ := block_of_slot hslot
    refine orAlloc_wp hl ho (fun hne => ?_) (fun hz hfull => ?_) fun hz b hb hm => ?_
    · rw [← hblock] at hne ⊢
      exact .found hne
    · exact .full (hblock.trans hz) hfull
    · exact setCopy_wp (.addr h (hblock.trans hz) hb hm)
  · next h =>
    have hin : bn - NDIRECT < NINDIRECT := by
      unfold MAXFILE at hbn
      omega
    have hslot : fileSlot bn = some (.entry ⟨bn - NDIRECT, hin⟩) := by rw [fileSlot, dif_neg h, dif_pos hin]
    rw [if_pos hin, wp_bind]
    refine orAlloc_wp hl ho (fun hne => ?_) (fun hz hfull => ?_) fun hz b hb hm => ?_
    · have hblock : (s.inode ip).d.block s.cache bn =
          word (s.cache ((s.inode ip).d.addrs indirect).toNat) (bn - NDIRECT) := by
        rw [block_of_slot hslot, ref_entry_of_ne hne]
      rw [if_neg hne]
      refine bmapEntry_step hl ho ⟨bn - NDIRECT, hin⟩ (fun h0 => ?_) (fun h0 hfull => ?_) fun h0 b hb hm => ?_
      · rw [← hblock] at h0 ⊢
        exact .found h0
      · exact .full (hblock.trans h0) hfull
      · exact .entry hslot hne (hblock.trans h0) hb hm
    · have hblock : (s.inode ip).d.block s.cache bn = 0 := by rw [block_of_slot hslot, Dinode.ref, if_pos hz]
      exact .full hblock hfull
    · obtain ⟨D', hv', ho', hg, hD⟩ := hv.growAddr hl ho hb hm hz
      have hne := ho.ofNat_ne_zero hl hb hm
      refine setCopy_wp ?_
      rw [if_neg hne]
      -- the new indirect block is empty
      have hzero : word ((s.addAddr sb ip indirect b).cache (BitVec.ofNat 32 b).toNat) (bn - NDIRECT) = 0 := by
        rw [hl.ofNat_toNat hb]
        change word ((s.allocBlock sb b).cache b) (bn - NDIRECT) = 0
        rw [State.allocBlock_cache, update_self]
        exact word_zero _
      refine bmapEntry_step hl ho' ⟨bn - NDIRECT, hin⟩ (fun h0 => absurd hzero h0) (fun _ hfull => ?_)
        fun _ b' hb' hm' => ?_
      · exact .half hslot hz hb hm hfull
      · exact .both hslot hz hb hm hb' hm'

theorem ndirect_le_of_entry {j : Fin NINDIRECT} (h : fileSlot bn = some (.entry j)) : NDIRECT ≤ bn := by
  by_contra hlt
  rw [fileSlot, dif_pos (not_le.mp hlt)] at h
  cases h

namespace BmapStep

theorem synced (h : BmapStep sb ip bn s a s') (hs : s.cache = s.store) : s'.cache = s'.store := by
  have hput : ∀ (t : State) (b : ℕ) (d : Data), t.cache = t.store → (t.put b d).cache = (t.put b d).store := by
    intro t b d ht
    rw [State.put_cache, ht]
    rfl
  have halloc : ∀ (t : State) (b : ℕ), t.cache = t.store → (t.allocBlock sb b).cache = (t.allocBlock sb b).store :=
    fun t b ht => hput _ _ _ (hput _ _ _ ht)
  cases h with
  | found => exact hs
  | full => exact hs
  | addr => exact halloc _ _ hs
  | entry => exact hput _ _ _ (halloc _ _ hs)
  | half => exact halloc _ _ hs
  | both => exact hput _ _ _ (halloc _ _ (halloc _ _ hs))

theorem ref (hl : Layout sb) (hv : View sb s ip D) (ho : Owned sb s.cache D F) (h : BmapStep sb ip bn s a s') {t : Slot}
    (ht : t ≠ .addr indirect) : (s'.inode ip).d.ref s'.cache t =
      if fileSlot bn = some t then a else (s.inode ip).d.ref s.cache t := by
  have hold : ∀ {b : ℕ}, b < sb.size → marked sb s.cache b = false → ∀ u, (s.inode ip).d.ref
      (update (mark sb s.cache b) b fun _ => 0) u = (s.inode ip).d.ref s.cache u := by
    intro b hb hm u
    rw [hv.copy]
    exact ho.ref_alloc hl hb hm hv.alloc
  have hnone : (s.inode ip).d.block s.cache bn = 0 → (s.inode ip).d.ref s.cache t =
      if fileSlot bn = some t then 0 else (s.inode ip).d.ref s.cache t := by
    intro h0
    split
    · next hslot => rw [← block_of_slot hslot, h0]
    · rfl
  -- a new indirect block has no entries
  have hind : ∀ {b : ℕ}, b < sb.size → marked sb s.cache b = false → (s.inode ip).d.addrs indirect = 0 →
      ∀ u, ((s.addAddr sb ip indirect b).inode ip).d.ref (s.addAddr sb ip indirect b).cache u =
        if u = .addr indirect then BitVec.ofNat 32 b else (s.inode ip).d.ref s.cache u := by
    intro b hb hm ha u
    rw [State.addAddr, State.setEntry_inode, update_self, State.setEntry_cache, State.allocBlock_cache,
      ref_setAddr_indirect ha, hold hb hm]
    intro j
    rw [hl.ofNat_toNat hb, update_self]
    exact word_zero j
  have hself : ∀ {u : Slot}, fileSlot bn = some u → (t = u ↔ fileSlot bn = some t) := by
    intro u hslot
    rw [hslot, Option.some_inj]
    exact eq_comm
  cases h with
  | found hne =>
    split
    · next hslot => exact (block_of_slot hslot).symm
    · rfl
  | full h0 hf => exact hnone h0
  | @addr b hi h0 hb hm =>
    have hslot : fileSlot bn = some (.addr ⟨bn, Nat.lt_succ_of_lt hi⟩) := by rw [fileSlot, dif_pos hi]
    have hne : (⟨bn, Nat.lt_succ_of_lt hi⟩ : Fin (NDIRECT + 1)) ≠ indirect := by
      intro he
      have := congrArg Fin.val he
      simp only [indirect, Fin.val_last] at this
      omega
    rw [State.addAddr, State.setEntry_inode, update_self, State.setEntry_cache, State.allocBlock_cache,
      ref_setAddr_direct hne, hold hb hm]
    exact if_congr (hself hslot) rfl rfl
  | @entry b j hslot ha h0 hb hm =>
    rw [State.addEntry_inode, State.addEntry_cache, ref_setWord rfl ha, State.allocBlock_cache, hold hb hm]
    exact if_congr (hself hslot) rfl rfl
  | @half b j hslot ha hb hm hf =>
    have h0 : (s.inode ip).d.block s.cache bn = 0 := by rw [block_of_slot hslot, Dinode.ref, if_pos ha]
    rw [hind hb hm ha, if_neg ht]
    exact hnone h0
  | @both b b' j hslot ha hb hm hb' hm' =>
    obtain ⟨D', hv', ho', -, -⟩ := hv.growAddr hl ho hb hm ha
    have hold' : ((s.addAddr sb ip indirect b).inode ip).d.ref ((s.addAddr sb ip indirect b).allocBlock sb b').cache t =
        ((s.addAddr sb ip indirect b).inode ip).d.ref (s.addAddr sb ip indirect b).cache t := by
      rw [State.allocBlock_cache, hv'.copy]
      exact ho'.ref_alloc hl hb' hm' hv'.alloc
    rw [State.addEntry_inode, State.addEntry_cache, ref_setWord State.addAddr_addrs (ho.ofNat_ne_zero hl hb hm), hold',
      hind hb hm ha,
      if_neg ht]
    exact if_congr (hself hslot) rfl rfl

theorem block (hl : Layout sb) (hv : View sb s ip D) (ho : Owned sb s.cache D F) (h : BmapStep sb ip bn s a s')
    (hbn : bn < MAXFILE) (k : ℕ) :
    (s'.inode ip).d.block s'.cache k = if k = bn then a else (s.inode ip).d.block s.cache k := by
  obtain ⟨t, hslot⟩ := exists_fileSlot hbn
  rw [Dinode.block, Dinode.block]
  cases hk : fileSlot k with
  | none =>
    have hne : k ≠ bn := by
      rintro rfl
      rw [hslot] at hk
      cases hk
    rw [if_neg hne]
  | some u =>
    have hu : u ≠ .addr indirect := fun he => fileSlot_ne_indirect (he ▸ hk)
    dsimp only
    rw [h.ref hl hv ho hu]
    refine if_congr ⟨fun he => fileSlot_inj hk he, fun he => he ▸ hk⟩ rfl rfl

theorem indirect_eq (h : BmapStep sb ip bn s a s') : (s'.inode ip).d.addrs indirect = (s.inode ip).d.addrs indirect ∨
    (s.inode ip).d.addrs indirect = 0 ∧ NDIRECT ≤ bn := by
  cases h with
  | found => exact Or.inl rfl
  | full => exact Or.inl rfl
  | addr hi =>
    left
    rw [State.addAddr, State.setEntry_inode, update_self, setAddr_addrs, update_of_ne]
    intro he
    have := congrArg Fin.val he
    simp only [indirect, Fin.val_last] at this
    omega
  | entry => exact Or.inl rfl
  | half hslot ha => exact Or.inr ⟨ha, ndirect_le_of_entry hslot⟩
  | both hslot ha => exact Or.inr ⟨ha, ndirect_le_of_entry hslot⟩

end BmapStep

/-! ## The blocks that are needed -/

/-- How many blocks `bmap` has to allocate. -/
def Dinode.need (x : Dinode) (c : ℕ → Data) (bn : ℕ) : ℕ :=
  if x.block c bn ≠ 0 then 0 else if NDIRECT ≤ bn ∧ x.addrs indirect = 0 then 2 else 1

theorem BmapStep.space (hl : Layout sb) (hv : View sb s ip D) (ho : Owned sb s.cache D F) (h : BmapStep sb ip bn s a s') :
    (a = 0 ↔ freeBlocks sb s.cache < (s.inode ip).d.need s.cache bn) ∧
      (a ≠ 0 → freeBlocks sb s'.cache + (s.inode ip).d.need s.cache bn = freeBlocks sb s.cache) := by
  have hempty : ∀ {j : Fin NINDIRECT}, fileSlot bn = some (.entry j) → (s.inode ip).d.addrs indirect = 0 →
      (s.inode ip).d.need s.cache bn = 2 := by
    intro j hslot ha
    have h0 : (s.inode ip).d.block s.cache bn = 0 := by rw [block_of_slot hslot, Dinode.ref, if_pos ha]
    rw [Dinode.need, if_neg (not_not.mpr h0), if_pos ⟨ndirect_le_of_entry hslot, ha⟩]
  cases h with
  | found hne =>
    rw [Dinode.need, if_pos hne]
    exact ⟨⟨fun h0 => absurd h0 hne, fun hlt => absurd hlt (Nat.not_lt_zero _)⟩, fun _ => rfl⟩
  | full h0 hf =>
    have hz := freeBlocks_eq_zero.mpr hf
    have hpos : 0 < (s.inode ip).d.need s.cache bn := by
      rw [Dinode.need, if_neg (not_not.mpr h0)]
      split <;> omega
    simp [hz, hpos]
  | @addr b hi h0 hb hm =>
    have hone : (s.inode ip).d.need s.cache bn = 1 := by
      rw [Dinode.need, if_neg (not_not.mpr h0), if_neg]
      omega
    have hne := ho.ofNat_ne_zero hl hb hm
    have hpos := freeBlocks_pos hb hm
    have htake := ho.freeBlocks_alloc hl hb hm
    rw [hone]
    exact ⟨⟨fun he => absurd he hne, fun hlt => by omega⟩, fun _ => htake⟩
  | @entry b j hslot ha h0 hb hm =>
    have hone : (s.inode ip).d.need s.cache bn = 1 := by
      rw [Dinode.need, if_neg (not_not.mpr h0), if_neg fun hx => ha hx.2]
    have hne := ho.ofNat_ne_zero hl hb hm
    have hpos := freeBlocks_pos hb hm
    have htake := ho.freeBlocks_alloc hl hb hm
    have hdata : sb.nmeta ≤ ((s.inode ip).d.addrs indirect).toNat := by
      rw [hv.copy] at ha ⊢
      exact (ho.ref_data hv.alloc (t := .addr indirect) ha).1
    rw [hone, State.addEntry_cache, freeBlocks_data hl hdata]
    exact ⟨⟨fun he => absurd he hne, fun hlt => by omega⟩, fun _ => htake⟩
  | @half b j hslot ha hb hm hf =>
    have htake := ho.freeBlocks_alloc hl hb hm
    have hz : freeBlocks sb (update (mark sb s.cache b) b fun _ => 0) = 0 := freeBlocks_eq_zero.mpr hf
    rw [hempty hslot ha]
    exact ⟨⟨fun _ => by omega, fun _ => rfl⟩, fun hne => absurd rfl hne⟩
  | @both b b' j hslot ha hb hm hb' hm' =>
    obtain ⟨D', hv', ho', -, -⟩ := hv.growAddr hl ho hb hm ha
    have hne := ho'.ofNat_ne_zero hl hb' hm'
    have htake : freeBlocks sb (s.addAddr sb ip indirect b).cache + 1 = freeBlocks sb s.cache :=
      ho.freeBlocks_alloc hl hb hm
    have htake' := ho'.freeBlocks_alloc hl hb' hm'
    have hdata : sb.nmeta ≤ (BitVec.ofNat 32 b).toNat := by
      rw [hl.ofNat_toNat hb]
      exact ho.data_of_free hm
    rw [hempty hslot ha, State.addEntry_cache, freeBlocks_data hl hdata, State.allocBlock_cache]
    exact ⟨⟨fun he => absurd he hne, fun hlt => by omega⟩, fun _ => by omega⟩

/-- How many blocks have to be allocated for the file to have all blocks from `lo` to `hi`. -/
def Dinode.missing (x : Dinode) (c : ℕ → Data) (lo hi : ℕ) : ℕ :=
  ((Finset.Icc lo hi).filter fun bn => x.block c bn = 0).card + if NDIRECT ≤ hi ∧ x.addrs indirect = 0 then 1 else 0

theorem block_eq_zero_of_indirect (hbn : NDIRECT ≤ bn) (h : x.addrs indirect = 0) : x.block c bn = 0 := by
  rw [Dinode.block]
  cases ht : fileSlot bn with
  | none => rfl
  | some t =>
    rw [fileSlot, dif_neg (not_lt.mpr hbn)] at ht
    split at ht
    · obtain rfl := Option.some_inj.mp ht
      exact if_pos h
    · cases ht

theorem missing_self : x.missing c bn bn = x.need c bn := by
  rw [Dinode.missing, Dinode.need, Finset.Icc_self, Finset.filter_singleton]
  by_cases h0 : x.block c bn = 0
  · rw [if_pos h0, if_neg (not_not.mpr h0), Finset.card_singleton]
    split <;> rfl
  · have hne : ¬ (NDIRECT ≤ bn ∧ x.addrs indirect = 0) := fun h => h0 (block_eq_zero_of_indirect h.1 h.2)
    rw [if_neg h0, if_pos h0, if_neg hne, Finset.card_empty]

theorem missing_congr {y : Dinode} {c' : ℕ → Data} (h : ∀ t, y.ref c' t = x.ref c t) (lo hi : ℕ) :
    y.missing c' lo hi = x.missing c lo hi := by
  have State.addAddr_addrs : y.addrs indirect = x.addrs indirect := h (.addr indirect)
  have hblock : ∀ bn, y.block c' bn = x.block c bn := fun bn => block_congr h
  rw [Dinode.missing, Dinode.missing, State.addAddr_addrs]
  simp only [hblock]

theorem Icc_filter_card {P : ℕ → Prop} [DecidablePred P] {lo hi : ℕ} (h : lo ≤ hi) :
    ((Finset.Icc lo hi).filter P).card = (if P lo then 1 else 0) + ((Finset.Icc (lo + 1) hi).filter P).card := by
  have hnot : lo ∉ (Finset.Icc (lo + 1) hi).filter P := by simp
  rw [← Finset.insert_Icc_add_one_left_eq_Icc h, Finset.filter_insert]
  split
  · rw [Finset.card_insert_of_notMem hnot, Nat.add_comm]
  · rw [Nat.zero_add]

theorem need_le_missing {lo hi : ℕ} (h : lo ≤ hi) : x.need c lo ≤ x.missing c lo hi := by
  rw [← missing_self, Dinode.missing, Dinode.missing, Icc_filter_card h, Icc_filter_card le_rfl]
  have hempty : Finset.Icc (lo + 1) lo = ∅ := Finset.Icc_eq_empty (by omega)
  rw [hempty, Finset.filter_empty, Finset.card_empty]
  have hterm : (if NDIRECT ≤ lo ∧ x.addrs indirect = 0 then 1 else 0) ≤
      if NDIRECT ≤ hi ∧ x.addrs indirect = 0 then 1 else 0 := by
    by_cases hlo : NDIRECT ≤ lo ∧ x.addrs indirect = 0
    · rw [if_pos hlo, if_pos ⟨hlo.1.trans h, hlo.2⟩]
    · rw [if_neg hlo]
      exact Nat.zero_le _
  omega

theorem BmapStep.missing (hl : Layout sb) (hv : View sb s ip D) (ho : Owned sb s.cache D F)
    (h : BmapStep sb ip bn s a s') (ha : a ≠ 0) (hbn : bn < MAXFILE) {hi : ℕ} (hlt : bn < hi) :
    (s'.inode ip).d.missing s'.cache (bn + 1) hi + (s.inode ip).d.need s.cache bn =
      (s.inode ip).d.missing s.cache bn hi := by
  have hcard : ((Finset.Icc (bn + 1) hi).filter fun k => (s'.inode ip).d.block s'.cache k = 0) =
      (Finset.Icc (bn + 1) hi).filter fun k => (s.inode ip).d.block s.cache k = 0 := by
    refine Finset.filter_congr fun k hk => ?_
    have hne : k ≠ bn := by
      have := (Finset.mem_Icc.mp hk).1
      omega
    rw [h.block hl hv ho hbn, if_neg hne]
  -- an entry that is there has an indirect block
  have hind : NDIRECT ≤ bn → (s'.inode ip).d.addrs indirect ≠ 0 := by
    intro hge h0
    have hz := block_eq_zero_of_indirect (c := s'.cache) hge h0
    rw [h.block hl hv ho hbn, if_pos rfl] at hz
    exact ha hz
  rw [Dinode.missing, Dinode.missing, Icc_filter_card hlt.le, hcard, Dinode.need]
  have hcases := h.indirect_eq
  by_cases hge : NDIRECT ≤ bn
  · have hne := hind hge
    have hhi : NDIRECT ≤ hi := by omega
    by_cases h0 : (s.inode ip).d.addrs indirect = 0
    · have hb0 := block_eq_zero_of_indirect (c := s.cache) hge h0
      simp only [hb0, h0, hge, hhi, hne, ne_eq, not_true_eq_false, if_false, and_true, and_false, if_true]
      omega
    · simp only [h0, hne, and_false, if_false]
      by_cases hb0 : (s.inode ip).d.block s.cache bn = 0 <;>
        simp only [hb0, ne_eq, not_true_eq_false, not_false_eq_true, if_false, if_true] <;> omega
  · rcases hcases with he | ⟨-, hge'⟩
    · rw [he]
      simp only [hge, false_and, if_false]
      by_cases hb0 : (s.inode ip).d.block s.cache bn = 0 <;>
        simp only [hb0, ne_eq, not_true_eq_false, not_false_eq_true, if_false, if_true] <;> omega
    · exact absurd hge' hge

end Xv6Boot.Kernel.Fs
