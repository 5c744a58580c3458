import Xv6Boot.Kernel.FsContent

/-! # `itrunc`

Every block of one inode is given back and nothing else changes. While the entries of the indirect block are freed
the inode still refers to it; for the account it is already out of its slot and in flight, with its entries.
-/

namespace Xv6Boot.Kernel.Fs
open Function Program

variable {sb : Superblock} {s s₀ s₁ s' : State} {ip : Ip} {c c' : ℕ → Data} {D D₀ D' : ℕ → Dinode} {F : Set ℕ}
  {b n m k : ℕ} {x y : Dinode} {a : BitVec 32} {E : String → Prop}

/-- Blocks of `ip` have been freed. -/
structure Freed (sb : Superblock) (ip : Ip) (s₀ s : State) (D₀ D : ℕ → Dinode) : Prop extends
    Readdressed sb ip s₀ s D₀ D where
  data : ∀ k, sb.nmeta ≤ k → s.cache k = s₀.cache k

namespace Freed

theorem refl (ip : Ip) (s : State) (D : ℕ → Dinode) : Freed sb ip s s D D := ⟨.refl ip s D, fun _ _ => rfl⟩

theorem trans {D₁ : ℕ → Dinode} (h : Freed sb ip s₀ s₁ D₀ D₁) (h' : Freed sb ip s₁ s D₁ D) : Freed sb ip s₀ s D₀ D :=
  ⟨h.toReaddressed.trans h'.toReaddressed, fun k hk => (h'.data k hk).trans (h.data k hk)⟩

theorem of_freeBlock (hl : Layout sb) (hb : b < sb.size)
    (hi : s'.inode = update s.inode ip { s.inode ip with d := x }) (hc : s'.cache = unmark sb s.cache b)
    (hD : ∃ f, D' = update D (s.inode ip).inum { D (s.inode ip).inum with addrs := f }) :
    Freed sb ip s s' D D' where
  entry := ⟨x, hi⟩
  inode := hD
  data k hk := by rw [hc, unmark_data hl hb hk]
  disk m hm := by rw [hc, dinode_unmark hl hm]

end Freed

theorem View.setAddr (hv : View sb s ip D) {i : Fin (NDIRECT + 1)}
    (hi : s'.inode = update s.inode ip { s.inode ip with d := (s.inode ip).d.setAddr i a })
    (hdisk : ∀ m < sb.ninodes, dinode sb s'.cache m = dinode sb s.cache m) :
    View sb s' ip (update D (s.inode ip).inum ((D (s.inode ip).inum).setAddr i a)) where
  alloc := by
    rw [hi, update_self]
    exact allocated_setAddr.mpr hv.alloc
  copy := by rw [hi, update_self, update_self, hv.copy]
  disk m hm hne := by
    rw [hi, update_self] at hne
    rw [hdisk m hm, update_of_ne hne]
    exact hv.disk m hm hne

/-! ## The direct blocks -/

theorem truncDirect_wp (hl : Layout sb) (hv : View sb s ip D) (ho : Owned sb s.cache D F) {i : Fin (NDIRECT + 1)}
    (hi : i ≠ indirect) :
    wp (truncDirect sb ip i) (fun _ s' => ∃ D', View sb s' ip D' ∧ Owned sb s'.cache D' F ∧
      Freed sb ip s s' D D' ∧ D' (s.inode ip).inum = (D (s.inode ip).inum).setAddr i 0) E s := by
  rw [truncDirect, wp_bind, wp_get, hv.copy]
  split
  · next hne =>
    have hb := ho.ref_data hv.alloc (t := .addr i) hne
    have hF : ((D (s.inode ip).inum).addrs i).toNat ∉ F := fun hF =>
      ho.ref_ne_flight hv.alloc (t := .addr i) hne hF rfl
    refine wp_bind.mpr (bfree_wp (ho.ref_marked hv.alloc (t := .addr i) hne) (setCopy_wp ?_))
    have hfreed : Freed sb ip s ((s.freeBlock sb ((D (s.inode ip).inum).addrs i).toNat).setEntry ip
        { s.inode ip with d := (s.inode ip).d.setAddr i 0 }) D
        (update D (s.inode ip).inum ((D (s.inode ip).inum).setAddr i 0)) :=
      Freed.of_freeBlock hl hb.2 rfl rfl ⟨_, rfl⟩
    refine ⟨update D (s.inode ip).inum ((D (s.inode ip).inum).setAddr i 0), hv.setAddr rfl hfreed.disk, ?_,
      hfreed, update_self ..⟩
    have hdet := (ho.detachAddr hv.alloc hi hne).free hl (Set.mem_insert _ _)
    rwa [Set.insert_sdiff_of_mem _ (Set.mem_singleton _), Set.sdiff_singleton_eq_self hF] at hdet
  · next hz =>
    have hz' : (D (s.inode ip).inum).addrs i = 0 := not_not.mp hz
    refine ⟨D, hv, ho, Freed.refl ip s D, ?_⟩
    rw [Dinode.setAddr, ← hz', update_eq_self]

theorem truncDirects_wp (hl : Layout sb) (hv : View sb s ip D) (ho : Owned sb s.cache D F) :
    wp ((List.finRange NDIRECT).forM fun i => truncDirect sb ip i.castSucc)
      (fun _ s' => ∃ D', View sb s' ip D' ∧ Owned sb s'.cache D' F ∧ Freed sb ip s s' D D' ∧
        ∀ i : Fin NDIRECT, (D' (s.inode ip).inum).addrs i.castSucc = 0) E s := by
  refine (wp_forM (fun l s' => ∃ D', View sb s' ip D' ∧ Owned sb s'.cache D' F ∧ Freed sb ip s s' D D' ∧
    ∀ i : Fin NDIRECT, i ∉ l → (D' (s.inode ip).inum).addrs i.castSucc = 0) ?_ ?_).mono ?_
  · exact ⟨D, hv, ho, Freed.refl ip s D, fun i hi => absurd (List.mem_finRange i) hi⟩
  · rintro i l s₁ ⟨D₁, hv₁, ho₁, hf₁, hz⟩
    have hne : i.castSucc ≠ indirect := (Fin.castSucc_lt_last i).ne
    refine (truncDirect_wp hl hv₁ ho₁ hne).mono fun _ s₂ ⟨D₂, hv₂, ho₂, hf₂, hD₂⟩ => ?_
    rw [hf₁.inum] at hD₂
    refine ⟨D₂, hv₂, ho₂, hf₁.trans hf₂, fun j hj => ?_⟩
    rw [hD₂, setAddr_addrs, update_apply]
    split
    · rfl
    · next hji =>
      refine hz j fun hmem => ?_
      rcases List.mem_cons.mp hmem with rfl | hmem
      · exact hji rfl
      · exact hj hmem
  · rintro _ s' ⟨D', hv', ho', hf', hz⟩
    exact ⟨D', hv', ho', hf', fun i => hz i (List.not_mem_nil)⟩

/-! ## The blocks of the indirect block -/

/-- What is in flight while the entries `l` are still to be freed. -/
def pendingEntries (d : Data) (l : List ℕ) : Set ℕ := {b | ∃ j ∈ l, word d j ≠ 0 ∧ (word d j).toNat = b}

theorem truncEntries_wp (hl : Layout sb) {d : Data} (hd : s.cache a.toNat = d) (hdata : sb.nmeta ≤ a.toNat)
    (ho : Owned sb s.cache D (insert a.toNat (F ∪ pendingEntries d (List.range NINDIRECT))))
    (hF : ∀ j < NINDIRECT, word d j ≠ 0 → (word d j).toNat ∉ insert a.toNat F)
    (hinj : ∀ j < NINDIRECT, ∀ k < NINDIRECT, word d j ≠ 0 → word d j = word d k → j = k) :
    wp ((List.range NINDIRECT).forM (truncEntry sb a.toNat))
      (fun _ s' => s'.inode = s.inode ∧ Owned sb s'.cache D (insert a.toNat F) ∧
        (∀ k, sb.nmeta ≤ k → s'.cache k = s.cache k) ∧
        ∀ m < sb.ninodes, dinode sb s'.cache m = dinode sb s.cache m) E s := by
  refine (wp_forM (fun l s' => (l.Nodup ∧ ∀ j ∈ l, j < NINDIRECT) ∧ s'.inode = s.inode ∧
    Owned sb s'.cache D (insert a.toNat (F ∪ pendingEntries d l)) ∧
    (∀ k, sb.nmeta ≤ k → s'.cache k = s.cache k) ∧
    ∀ m < sb.ninodes, dinode sb s'.cache m = dinode sb s.cache m) ?_ ?_).mono ?_
  · exact ⟨⟨List.nodup_range, fun j => List.mem_range.mp⟩, rfl, ho, fun _ _ => rfl, fun _ _ => rfl⟩
  · rintro j l s₁ ⟨⟨hnodup, hlt⟩, hi, ho₁, hk, hdisk⟩
    obtain ⟨hjl, hnodup'⟩ := List.nodup_cons.mp hnodup
    have hj : j < NINDIRECT := hlt j List.mem_cons_self
    have hl' : ∀ k ∈ l, k < NINDIRECT := fun k hkl => hlt k (List.mem_cons_of_mem _ hkl)
    rw [truncEntry, bread, wp_bind, wp_bind, wp_get, wp_pure, hk _ hdata, hd]
    split
    · next hne =>
      have hmem : (word d j).toNat ∈ insert a.toNat (F ∪ pendingEntries d (j :: l)) :=
        Or.inr (Or.inr ⟨j, List.mem_cons_self, hne, rfl⟩)
      refine bfree_wp (ho₁.exact.used_of_flight hmem) ⟨⟨hnodup', hl'⟩, hi, ?_, fun k hk' => ?_, fun m hm => ?_⟩
      · have hset : insert a.toNat (F ∪ pendingEntries d (j :: l)) \ {(word d j).toNat} =
            insert a.toNat (F ∪ pendingEntries d l) := by
          have hout := hF j hj hne
          rw [Set.mem_insert_iff, not_or] at hout
          ext b
          simp only [Set.mem_sdiff, Set.mem_insert_iff, Set.mem_union, Set.mem_singleton_iff]
          constructor
          · rintro ⟨rfl | hb | ⟨i, hi', hne', rfl⟩, hbj⟩
            · exact Or.inl rfl
            · exact Or.inr (Or.inl hb)
            · rcases List.mem_cons.mp hi' with rfl | hi'
              · exact absurd rfl hbj
              · exact Or.inr (Or.inr ⟨i, hi', hne', rfl⟩)
          · rintro (rfl | hb | ⟨i, hi', hne', rfl⟩)
            · exact ⟨Or.inl rfl, fun he => hout.1 he.symm⟩
            · exact ⟨Or.inr (Or.inl hb), fun he => hout.2 (he ▸ hb)⟩
            · refine ⟨Or.inr (Or.inr ⟨i, List.mem_cons_of_mem _ hi', hne', rfl⟩), fun he => hjl ?_⟩
              rw [hinj j hj i (hl' i hi') hne (BitVec.eq_of_toNat_eq he).symm]
              exact hi'
        rw [← hset]
        exact ho₁.free hl hmem
      · rw [State.freeBlock_cache, unmark_data hl (ho₁.exact.flight_area _ hmem).2 hk']
        exact hk k hk'
      · rw [State.freeBlock_cache, dinode_unmark hl hm]
        exact hdisk m hm
    · next hz =>
      have hz' : word d j = 0 := not_not.mp hz
      refine ⟨⟨hnodup', hl'⟩, hi, ?_, hk, hdisk⟩
      have hset : pendingEntries d (j :: l) = pendingEntries d l := by
        ext b
        constructor
        · rintro ⟨i, hi', hne', rfl⟩
          rcases List.mem_cons.mp hi' with rfl | hi'
          · exact absurd hz' hne'
          · exact ⟨i, hi', hne', rfl⟩
        · rintro ⟨i, hi', hne', rfl⟩
          exact ⟨i, List.mem_cons_of_mem _ hi', hne', rfl⟩
      rw [← hset]
      exact ho₁
  · rintro _ s' ⟨_, hi, ho', hk, hdisk⟩
    have hnil : pendingEntries d [] = ∅ := by
      ext b
      simp [pendingEntries]
    rw [hnil, Set.union_empty] at ho'
    exact ⟨hi, ho', hk, hdisk⟩

theorem truncIndirect_wp (hl : Layout sb) (hv : View sb s ip D) (ho : Owned sb s.cache D F) :
    wp (truncIndirect sb ip) (fun _ s' => ∃ D', View sb s' ip D' ∧ Owned sb s'.cache D' F ∧ Freed sb ip s s' D D' ∧
        D' (s.inode ip).inum = (D (s.inode ip).inum).setAddr indirect 0) E s := by
  rw [truncIndirect, wp_bind, wp_get, hv.copy]
  by_cases ha0 : (D (s.inode ip).inum).addrs indirect = 0
  · simp only [ha0, ne_eq, not_true_eq_false, if_false, wp_pure]
    exact ⟨D, hv, ho, Freed.refl ip s D, by rw [Dinode.setAddr, ← ha0, update_eq_self]⟩
  generalize ha : (D (s.inode ip).inum).addrs indirect = a at ha0
  simp only [ne_eq, ha0, not_false_eq_true, if_true]
  have href : (D (s.inode ip).inum).ref s.cache (.addr indirect) = a := ha
  have hbound := ho.ref_data hv.alloc (t := .addr indirect) (by rw [href]; exact ha0)
  rw [href] at hbound
  have hentry : ∀ j, (hj : j < NINDIRECT) →
      (D (s.inode ip).inum).ref s.cache (.entry ⟨j, hj⟩) = word (s.cache a.toNat) j := by
    intro j hj
    rw [ref_entry_of_ne (by rw [ha]; exact ha0), ha]
  have hflight : insert a.toNat (F ∪ {b | ∃ j : Fin NINDIRECT, word (s.cache a.toNat) j ≠ 0 ∧
      (word (s.cache a.toNat) j).toNat = b}) =
      insert a.toNat (F ∪ pendingEntries (s.cache a.toNat) (List.range NINDIRECT)) := by
    have he : {b | ∃ j : Fin NINDIRECT, word (s.cache a.toNat) j ≠ 0 ∧ (word (s.cache a.toNat) j).toNat = b} =
        pendingEntries (s.cache a.toNat) (List.range NINDIRECT) := by
      ext b
      constructor
      · rintro ⟨j, hne, hb⟩
        exact ⟨j, List.mem_range.mpr j.isLt, hne, hb⟩
      · rintro ⟨j, hj, hne, hb⟩
        exact ⟨⟨j, List.mem_range.mp hj⟩, hne, hb⟩
    rw [he]
  have hout : a.toNat ∉ F := fun hF => ho.ref_ne_flight hv.alloc (t := .addr indirect) (by rw [href]; exact ha0) hF
    (by rw [href])
  have hdet := ho.detachIndirect hv.alloc ha ha0
  rw [hflight] at hdet
  refine (truncEntries_wp hl rfl hbound.1 hdet ?_ ?_).bind fun _ s₁ hs₁ => ?_
  · intro j hj hne
    rw [← hentry j hj] at hne ⊢
    rw [Set.mem_insert_iff, not_or]
    refine ⟨fun he => ?_, fun hF => ho.ref_ne_flight hv.alloc hne hF rfl⟩
    have hinj := ho.ref_inj hv.alloc hv.alloc hne ((href.trans (BitVec.eq_of_toNat_eq he.symm)))
    cases hinj.2
  · intro j hj k hk' hne he
    rw [← hentry j hj] at hne he
    rw [← hentry k hk'] at he
    have hinj := ho.ref_inj hv.alloc hv.alloc hne he.symm
    simpa [Fin.ext_iff] using hinj.2.symm
  · obtain ⟨hi, ho₁, hk, hdisk⟩ := hs₁
    refine wp_bind.mpr (bfree_wp (ho₁.exact.used_of_flight (Set.mem_insert _ _)) (setCopy_wp ?_))
    have hfreed : Freed sb ip s ((s₁.freeBlock sb a.toNat).setEntry ip
        { s₁.inode ip with d := (s₁.inode ip).d.setAddr indirect 0 }) D
        (update D (s.inode ip).inum ((D (s.inode ip).inum).setAddr indirect 0)) := by
      refine ⟨⟨⟨(s.inode ip).d.setAddr indirect 0, ?_⟩, ⟨_, rfl⟩, fun m hm => ?_⟩, fun k hk' => ?_⟩
      · rw [State.setEntry_inode, State.freeBlock_inode, hi]
      · rw [State.setEntry_cache, State.freeBlock_cache, dinode_unmark hl hm, hdisk m hm]
      · rw [State.setEntry_cache, State.freeBlock_cache, unmark_data hl hbound.2 hk', hk k hk']
    refine ⟨update D (s.inode ip).inum ((D (s.inode ip).inum).setAddr indirect 0), hv.setAddr ?_ hfreed.disk,
      ?_, hfreed, update_self ..⟩
    · rw [State.setEntry_inode, State.freeBlock_inode, hi]
    · have hfree := ho₁.free hl (Set.mem_insert a.toNat F)
      rwa [Set.insert_sdiff_of_mem _ (Set.mem_singleton _), Set.sdiff_singleton_eq_self hout] at hfree

/-! ## `itrunc` -/

/-- What `itrunc` leaves: an empty file, and the inode on disk. -/
structure Truncated (sb : Superblock) (ip : Ip) (s s' : State) (D D' : ℕ → Dinode) : Prop where
  entry : s'.inode = update s.inode ip { s.inode ip with d := D' (s.inode ip).inum }
  inode : D' = update D (s.inode ip).inum { D (s.inode ip).inum with addrs := fun _ => 0, size := 0 }
  disk : ∀ m < sb.ninodes, dinode sb s'.cache m =
    if m = (s.inode ip).inum then D' (s.inode ip).inum else dinode sb s.cache m
  data : ∀ k, sb.nmeta ≤ k → s'.cache k = s.cache k

theorem itrunc_wp (hl : Layout sb) (hv : View sb s ip D) (ho : Owned sb s.cache D F) :
    wp (itrunc sb ip) (fun _ s' => ∃ D', View sb s' ip D' ∧ Owned sb s'.cache D' F ∧ Truncated sb ip s s' D D') E s := by
  -- the last two steps, from a state in which no address is left
  have hend : ∀ s₁ D₁, View sb s₁ ip D₁ → Owned sb s₁.cache D₁ F → Freed sb ip s s₁ D D₁ →
      (∀ i, (D₁ (s.inode ip).inum).addrs i = 0) →
      wp (do setCopy ip fun x => { x with size := 0 }; iupdate sb ip)
        (fun _ s' => ∃ D', View sb s' ip D' ∧ Owned sb s'.cache D' F ∧ Truncated sb ip s s' D D') E s₁ := by
    intro s₁ D₁ hv₁ ho₁ hf₁ hz
    have hinum := hf₁.inum
    have hcopy : (s₁.inode ip).d = D₁ (s.inode ip).inum := hinum ▸ hv₁.copy
    have halloc : Allocated sb D₁ (s.inode ip).inum := hinum ▸ hv₁.alloc
    obtain ⟨f, hf⟩ := hf₁.inode
    obtain ⟨x, hx⟩ := hf₁.entry
    have hD₁ : { D₁ (s.inode ip).inum with size := 0 } =
        { D (s.inode ip).inum with addrs := fun _ => 0, size := 0 } := by
      have haddrs : (D₁ (s.inode ip).inum).addrs = fun _ => 0 := funext hz
      rw [← haddrs, hf, update_self]
    refine wp_bind.mpr (setCopy_wp (iupdate_wp ?_))
    simp only [State.setEntry_inode, update_self, hcopy, hinum, hD₁]
    refine ⟨update D (s.inode ip).inum { D (s.inode ip).inum with addrs := fun _ => 0, size := 0 }, ?_, ?_, ?_⟩
    · constructor
      · simp only [State.writeInode_inode, State.setEntry_inode, update_self]
        refine (allocated_update ?_).mpr hv.alloc
        exact Iff.rfl
      · simp only [State.writeInode_inode, State.setEntry_inode, update_self]
      · intro m hm hne
        simp only [State.writeInode_inode, State.setEntry_inode, update_self] at hne
        rw [State.writeInode_cache, State.setEntry_cache, dinode_setDinode, if_neg hne, update_of_ne hne,
          hf₁.disk m hm]
        exact hv.disk m hm hne
    · have hown := ho₁.setInode (n := (s.inode ip).inum) (x := { D₁ (s.inode ip).inum with size := 0 }) rfl Iff.rfl
      rw [hD₁, hf, update_idem] at hown
      exact hown.setDinode hl hv.alloc.1
    · constructor
      · simp only [State.writeInode_inode, State.setEntry_inode, update_self, hx, update_idem]
      · rfl
      · intro m hm
        rw [State.writeInode_cache, State.setEntry_cache, dinode_setDinode, update_self]
        split
        · rfl
        · exact hf₁.disk m hm
      · intro k hk
        rw [State.writeInode_cache, State.setEntry_cache, setDinode_data hl hv.alloc.1 hk]
        exact hf₁.data k hk
  rw [itrunc]
  refine (truncDirects_wp hl hv ho).bind fun _ s₁ ⟨D₁, hv₁, ho₁, hf₁, hz⟩ => ?_
  refine (truncIndirect_wp hl hv₁ ho₁).bind fun _ s₂ ⟨D₂, hv₂, ho₂, hf₂, hD₂⟩ => ?_
  refine hend s₂ D₂ hv₂ ho₂ (hf₁.trans hf₂) fun i => ?_
  rw [hf₁.inum] at hD₂
  rw [hD₂, setAddr_addrs]
  induction i using Fin.lastCases with
  | last => exact update_self ..
  | cast i =>
    have hne : i.castSucc ≠ indirect := (Fin.castSucc_lt_last i).ne
    rw [update_of_ne hne]
    exact hz i

end Xv6Boot.Kernel.Fs
