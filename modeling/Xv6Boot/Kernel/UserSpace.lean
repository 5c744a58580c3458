import Xv6Boot.Kernel.TableMap

/-! # User address spaces

Pages that are taken from the free list and mapped one after another, as `uvmalloc` and `uvmcopy` do, and what undoes
it. The pages of the machine are so few that the first `n` pages of an address space never reach the trap frame.
-/

namespace Xv6Boot.Kernel
open Function ByteMemory Loop StringC Pages

variable {sym : Symbols} {s s₁ s' : Kmem} {t t₁ t' : Pt} {root p va pa : Addr} {l : List Addr} {v k n : ℕ}
  {perm : BitVec 64} {fl : ℕ → BitVec 64} {b : ℕ → ℕ → Byte} {m : Mem} {j : ℕ} {a : Addr}

/-! ## One page -/

theorem Kpt.mappages_one (h : Kpt s t) (hva : Aligned va) (hlt : vpn va < 2 ^ 26)
    (hinv : lookup s.mem t (vpn va) &&& PTE_V = 0) (pa : Addr) (perm : BitVec 64) :
    ∃ s' t', Step s t s' t' ∧
      ((Kernel.mappages (t.addr .root) va (BitVec.ofNat 64 PGSIZE) pa perm s = some (0, s') ∧
          lookup s'.mem t' = update (lookup s.mem t) (vpn va) (PA2PTE pa ||| perm ||| PTE_V)) ∨
        (Kernel.mappages (t.addr .root) va (BitVec.ofNat 64 PGSIZE) pa perm s = some (-1, s') ∧
          lookup s'.mem t' = lookup s.mem t)) := by
  have hone : (BitVec.ofNat 64 PGSIZE).toNat / PGSIZE = 1 := rfl
  rcases h.mappages va pa (BitVec.ofNat 64 PGSIZE) perm hva rfl (by decide) with
    ⟨_, i, hi, hbad⟩ | ⟨_, s', t', hrun, hstep, hmap⟩ | ⟨j, hj, _, s', t', hrun, hstep, hmap, _⟩
  · have h0 : i = 0 := by omega
    subst h0
    rcases hbad with hbad | hbad
    · omega
    · exact absurd hinv hbad
  · rw [hone, mapRange_one] at hmap
    exact ⟨s', t', hstep, Or.inl ⟨hrun, hmap⟩⟩
  · have h0 : j = 0 := by omega
    subst h0
    rw [mapRange_zero] at hmap
    exact ⟨s', t', hstep, Or.inr ⟨hrun, hmap⟩⟩

theorem Kpt.take (h : Kpt s t) (hfree : t.free = p :: l) (hm : Frame (page p) (Kernel.kalloc s).2.mem m) :
    Kpt ⟨m, (Kernel.kalloc s).2.freelist⟩ { t with free := l } ∧ lookup m { t with free := l } = lookup s.mem t ∧
      Frame (page p) s.mem m ∧ p ∉ ({ t with free := l } : Pt).own ∧
      ∀ q, q ∈ t.own ↔ q = p ∨ q ∈ ({ t with free := l } : Pt).own := by
  obtain ⟨hk, hmap⟩ := h.kalloc hfree
  have hpool := h.pool
  rw [hfree] at hpool
  obtain ⟨_, _, hpool', hf⟩ := kalloc_cons hpool
  have hp : Aligned p := h.pool.aligned p (Pt.head_mem hfree)
  have hnot : p ∉ ({ t with free := l } : Pt).own := by
    rw [Pt.mem_own]
    rintro (⟨a, ha, he⟩ | hin)
    · exact h.addr_ne_head hfree ha he
    · exact h.head_notMem_tail hfree hin
  have hpool'' : Pool (Kmem.mem ⟨m, (Kernel.kalloc s).2.freelist⟩) (Kmem.freelist ⟨m, (Kernel.kalloc s).2.freelist⟩) l :=
    hpool'.frame_page hp (h.head_notMem_tail hfree) hm
  obtain ⟨hk', hmap'⟩ := hk.transfer hm
    (fun a ha => Pages.page_disjoint (h.aligned a ha) hp (h.addr_ne_head hfree ha)) hpool'' hk.low hk.fresh
  refine ⟨hk', funext fun w => (hmap' w).trans (hmap w), hf.trans hm, hnot, fun q => ?_⟩
  rw [Pt.mem_own, Pt.mem_own, hfree, List.mem_cons]
  exact or_left_comm

/-! ## Pages taken and mapped -/

/-- The pages `v` to `v + k` of the table are mapped to pages that were free, with the flags `fl` and the bytes `b`, and
nothing else has changed but the table and the free list. -/
structure Taken (fl : ℕ → BitVec 64) (b : ℕ → ℕ → Byte) (s : Kmem) (t : Pt) (v : ℕ) (s' : Kmem) (t' : Pt) (k : ℕ) :
    Prop where
  kpt : Kpt s' t'
  indexed : t.Indexed → t'.Indexed
  root : t'.addr .root = t.addr .root
  own : ∀ q, q ∈ t.own ↔ q ∈ t'.own ∨ ∃ i < k, leafPage s' t' (v + i) = q
  fresh : Fresh s' t' v k
  leaf : ∀ i < k, IsLeaf (lookup s'.mem t' (v + i))
  flags : ∀ i < k, PTE_FLAGS (lookup s'.mem t' (v + i)) = fl i
  bytes : ∀ i < k, ∀ j < PGSIZE, s'.mem (off (leafPage s' t' (v + i)) j) = b i j
  same : ∀ w, w < v ∨ v + k ≤ w → lookup s'.mem t' w = lookup s.mem t w
  frame : Frame (region t.own) s.mem s'.mem

theorem Taken.zero (h : Kpt s t) (fl : ℕ → BitVec 64) (b : ℕ → ℕ → Byte) (v : ℕ) : Taken fl b s t v s t 0 where
  kpt := h
  indexed := id
  root := rfl
  own := fun _ => ⟨Or.inl, fun hq => hq.elim id fun ⟨_, hi, _⟩ => absurd hi (Nat.not_lt_zero _)⟩
  fresh := ⟨fun _ hi => absurd hi (Nat.not_lt_zero _), fun _ hi => absurd hi (Nat.not_lt_zero _)⟩
  leaf := fun _ hi => absurd hi (Nat.not_lt_zero _)
  flags := fun _ hi => absurd hi (Nat.not_lt_zero _)
  bytes := fun _ hi => absurd hi (Nat.not_lt_zero _)
  same := fun _ _ => rfl
  frame := Frame.refl _ _

section Take
variable (h : Taken fl b s t v s₁ t₁ k)
include h

theorem Taken.own_subset : t₁.own ⊆ t.own := fun q hq => (h.own q).mpr (Or.inl hq)

theorem Taken.leafPage_mem {i : ℕ} (hi : i < k) : leafPage s₁ t₁ (v + i) ∈ t.own := (h.own _).mpr (Or.inr ⟨i, hi, rfl⟩)

theorem Taken.le_card : k ≤ t.own.card := by
  have hsub : (Finset.range k).image (fun i => leafPage s₁ t₁ (v + i)) ⊆ t.own := by
    intro q hq
    obtain ⟨i, hi, rfl⟩ := Finset.mem_image.mp hq
    exact h.leafPage_mem (Finset.mem_range.mp hi)
  have hcard := Finset.card_le_card hsub
  rw [Finset.card_image_of_injOn, Finset.card_range] at hcard
  · exact hcard
  · intro i hi j hj he
    exact h.fresh.inj i (Finset.mem_range.mp hi) j (Finset.mem_range.mp hj) he

theorem Taken.byte (hal : ∀ q ∈ t.own, Aligned q) (hf : Frame (region t₁.own) s₁.mem m) {i : ℕ} (hi : i < k)
    (hj : j < PGSIZE) : m (off (leafPage s₁ t₁ (v + i)) j) = b i j := by
  have hd := page_disjoint_region (fun q hq => hal q (h.own_subset hq)) (hal _ (h.leafPage_mem hi)) (h.fresh.not_own i hi)
  rw [← h.bytes i hi j hj]
  exact hf.byte hd hj (by unfold PGSIZE at hj; omega)

theorem Taken.carry (hal : ∀ q ∈ t.own, Aligned q) (hk : Kpt s' t') (hindexed : t₁.Indexed → t'.Indexed)
    (hroot : t'.addr .root = t₁.addr .root) (hown : ∀ q, q ∈ t₁.own ↔ q ∈ t'.own)
    (hmap : lookup s'.mem t' = lookup s₁.mem t₁) (hf : Frame (region t₁.own) s₁.mem s'.mem) :
    Taken fl b s t v s' t' k := by
  have hpage : leafPage s' t' = leafPage s₁ t₁ := funext fun w => congrArg PTE2PA (congrFun hmap w)
  exact {
    kpt := hk
    indexed := fun hi => hindexed (h.indexed hi)
    root := hroot.trans h.root
    own := fun q => by rw [h.own, hown, hpage]
    fresh := ⟨fun i hi hin => h.fresh.not_own i hi ((hown _).mpr (hpage ▸ hin)), fun i hi j hj => by
      rw [hpage]
      exact h.fresh.inj i hi j hj⟩
    leaf := fun i hi => hmap ▸ h.leaf i hi
    flags := fun i hi => hmap ▸ h.flags i hi
    bytes := fun i hi j hj => by
      rw [hpage]
      exact h.byte hal hf hi hj
    same := fun w hw => hmap ▸ h.same w hw
    frame := h.frame.trans (hf.mono (region_mono h.own_subset)) }

theorem Taken.push (hal : ∀ q ∈ t.own, Aligned q) (hk : Kpt s' t') (hindexed : t₁.Indexed → t'.Indexed)
    (hroot : t'.addr .root = t₁.addr .root) (hown : ∀ q, q ∈ t₁.own ↔ q = p ∨ q ∈ t'.own) (hp : p ∉ t'.own)
    {x : BitVec 64} (hmap : lookup s'.mem t' = update (lookup s₁.mem t₁) (v + k) x) (hx : PTE2PA x = p)
    (hleaf : IsLeaf x) (hflags : PTE_FLAGS x = fl k) (hbytes : ∀ j < PGSIZE, s'.mem (off p j) = b k j)
    (hf : Frame (region t₁.own) s₁.mem s'.mem) : Taken fl b s t v s' t' (k + 1) := by
  have hold : ∀ w, w ≠ v + k → lookup s'.mem t' w = lookup s₁.mem t₁ w := by
    intro w hw
    rw [hmap, update_of_ne hw]
  have hnew : lookup s'.mem t' (v + k) = x := by rw [hmap, update_self]
  have hentry : ∀ i < k, lookup s'.mem t' (v + i) = lookup s₁.mem t₁ (v + i) := fun i hi => hold _ (by omega)
  have hpage : ∀ i < k, leafPage s' t' (v + i) = leafPage s₁ t₁ (v + i) := fun i hi => congrArg PTE2PA (hentry i hi)
  have hpage' : leafPage s' t' (v + k) = p := by rw [leafPage, hnew, hx]
  have hne : ∀ i < k, leafPage s₁ t₁ (v + i) ≠ p := fun i hi he =>
    h.fresh.not_own i hi ((hown _).mpr (Or.inl he))
  have hcases : ∀ {P : ℕ → Prop}, (∀ i < k, P i) → P k → ∀ i < k + 1, P i := by
    intro P hlt hk' i hi
    rcases Nat.lt_succ_iff_lt_or_eq.mp hi with hi | rfl
    · exact hlt i hi
    · exact hk'
  exact {
    kpt := hk
    indexed := fun hi => hindexed (h.indexed hi)
    root := hroot.trans h.root
    own := by
      intro q
      rw [h.own, hown]
      constructor
      · rintro ((rfl | hq) | ⟨i, hi, rfl⟩)
        · exact Or.inr ⟨k, Nat.lt_succ_self k, hpage'⟩
        · exact Or.inl hq
        · exact Or.inr ⟨i, Nat.lt_succ_of_lt hi, hpage i hi⟩
      · rintro (hq | ⟨i, hi, rfl⟩)
        · exact Or.inl (Or.inr hq)
        · rcases Nat.lt_succ_iff_lt_or_eq.mp hi with hi | rfl
          · exact Or.inr ⟨i, hi, (hpage i hi).symm⟩
          · exact Or.inl (Or.inl hpage')
    fresh := by
      constructor
      · refine hcases (fun i hi hin => ?_) (hpage' ▸ hp)
        rw [hpage i hi] at hin
        exact h.fresh.not_own i hi ((hown _).mpr (Or.inr hin))
      · intro i hi j hj he
        rcases Nat.lt_succ_iff_lt_or_eq.mp hi with hi | rfl <;> rcases Nat.lt_succ_iff_lt_or_eq.mp hj with hj | rfl
        · rw [hpage i hi, hpage j hj] at he
          exact h.fresh.inj i hi j hj he
        · rw [hpage i hi, hpage'] at he
          exact absurd he (hne i hi)
        · rw [hpage j hj, hpage'] at he
          exact absurd he.symm (hne j hj)
        · rfl
    leaf := hcases (fun i hi => hentry i hi ▸ h.leaf i hi) (hnew.symm ▸ hleaf)
    flags := hcases (fun i hi => hentry i hi ▸ h.flags i hi) (hnew.symm ▸ hflags)
    bytes := hcases (fun i hi j hj => hpage i hi ▸ h.byte hal hf hi hj) (hpage'.symm ▸ hbytes)
    same := fun w hw => (hold w (by omega)).trans (h.same w (by omega))
    frame := h.frame.trans (hf.mono (region_mono h.own_subset)) }

theorem Taken.next (hsym : sym.Fits) (hpg : ∀ q ∈ t.own, IsPage sym q) (hfree : t₁.free = p :: l)
    (hm : Frame (page p) (kalloc s₁).2.mem m) (hbytes : ∀ j < PGSIZE, m (off p j) = b k j) (hva : Aligned va)
    (hvpn : vpn va = v + k) (hlt : v + k < 2 ^ 26) (hinv : lookup s.mem t (v + k) &&& PTE_V = 0)
    (hperm : perm.toNat < 1024) (hfl : perm ||| PTE_V = fl k) (hne : perm ||| PTE_V ≠ PTE_V) :
    ∃ s₂, (mappages (t.addr .root) va (BitVec.ofNat 64 PGSIZE) p perm ⟨m, (kalloc s₁).2.freelist⟩ = some (0, s₂) ∧
        ∃ t₂, Taken fl b s t v s₂ t₂ (k + 1)) ∨
      (mappages (t.addr .root) va (BitVec.ofNat 64 PGSIZE) p perm ⟨m, (kalloc s₁).2.freelist⟩ = some (-1, s₂) ∧
        ∃ s₃ t₃, kfree sym p s₂ = some s₃ ∧ Taken fl b s t v s₃ t₃ k) := by
  have hal : ∀ q ∈ t.own, Aligned q := fun q hq => (hpg q hq).aligned
  have hp : p ∈ t₁.own := Pt.free_mem_own (Pt.head_mem hfree)
  have hppg := hpg p (h.own_subset hp)
  obtain ⟨hk, hmap, hf, hnot, hown⟩ := h.kpt.take hfree hm
  have hinv' : lookup m { t₁ with free := l } (vpn va) &&& PTE_V = 0 := by
    rw [hmap, hvpn, h.same _ (Or.inr le_rfl)]
    exact hinv
  obtain ⟨s₂, t₂, hstep, hrun⟩ := hk.mappages_one hva (hvpn ▸ hlt) hinv' p perm
  have hroot : ({ t₁ with free := l } : Pt).addr .root = t.addr .root := h.root
  rw [hroot] at hrun
  have hsub : ({ t₁ with free := l } : Pt).own ⊆ t₁.own := fun q hq => (hown q).mpr (Or.inr hq)
  have hf₂ : Frame (region t₁.own) s₁.mem s₂.mem :=
    (hf.mono (page_subset_region hp)).trans (hstep.frame.mono (region_mono hsub))
  refine ⟨s₂, ?_⟩
  rcases hrun with ⟨hrun, hmap₂⟩ | ⟨hrun, hmap₂⟩
  · refine Or.inl ⟨hrun, t₂, ?_⟩
    have hx : PA2PTE p ||| perm ||| PTE_V = PA2PTE p ||| (perm ||| PTE_V) := BitVec.or_assoc _ _ _
    have hflags := PTE_FLAGS_PA2PTE_or p (or_PTE_V_lt hperm)
    have hleaf : IsLeaf (PA2PTE p ||| (perm ||| PTE_V)) := ⟨hx ▸ or_PTE_V_valid _, fun he => hne (hflags ▸ he)⟩
    rw [hmap, hvpn, hx] at hmap₂
    refine h.push hal hstep.kpt hstep.indexed hstep.root (fun q => ?_) ?_ hmap₂
      (PTE2PA_PA2PTE_or hppg.aligned (or_PTE_V_lt hperm)) hleaf (hflags.trans hfl) (fun j hj => ?_) hf₂
    · rw [hstep.own]
      exact hown q
    · rw [hstep.own]
      exact hnot
    · have hd := page_disjoint_region (fun q hq => hal q (h.own_subset (hsub hq))) hppg.aligned hnot
      rw [← hbytes j hj]
      exact hstep.frame.byte hd hj (by unfold PGSIZE at hj; omega)
  · refine Or.inr ⟨hrun, ?_⟩
    obtain ⟨s₃, hkf, hk₃, hmap₃, hf₃⟩ := hstep.kpt.kfree hsym hppg (hstep.own.symm ▸ hnot)
    refine ⟨s₃, t₂.give [p], hkf, h.carry hal hk₃ hstep.indexed hstep.root (fun q => ?_) ?_ ?_⟩
    · rw [hown, Pt.mem_give, hstep.own, List.mem_singleton, or_comm]
    · exact hmap₃.trans (hmap₂.trans hmap)
    · exact hf₂.trans (hf₃.mono (page_subset_region hp))

end Take

/-! ## Undoing it -/

/-- The pages taken are free again. The entries are as before, but some of the range that were invalid are now 0. -/
structure Restored (s : Kmem) (t : Pt) (v k : ℕ) (s' : Kmem) (t' : Pt) : Prop extends Step s t s' t' where
  map : ∀ w, lookup s'.mem t' w = lookup s.mem t w ∨
    ((v ≤ w ∧ w < v + k) ∧ lookup s.mem t w &&& PTE_V = 0 ∧ lookup s'.mem t' w = 0)

theorem Taken.uvmunmap (h : Taken fl b s t v s₁ t₁ k) (hsym : sym.Fits) (hpg : ∀ q ∈ t.own, IsPage sym q)
    (hva : Aligned va) (hvpn : vpn va = v) (hmax : v + k ≤ 2 ^ 26)
    (hinv : ∀ i < k, lookup s.mem t (v + i) &&& PTE_V = 0) :
    ∃ s' t', uvmunmap sym (t.addr .root) va (BitVec.ofNat 64 k) true s₁ = some s' ∧ Restored s t v k s' t' := by
  subst hvpn
  obtain ⟨s', hrun, hc⟩ := h.kpt.uvmunmap hsym hva hmax h.leaf (fun _ i hi => hpg _ (h.leafPage_mem hi)) fun _ => h.fresh
  rw [h.root] at hrun
  have hown : (t₁.give (freed s₁ t₁ true (vpn va) k)).own = t.own := by
    ext q
    rw [Pt.mem_give, h.own]
    exact or_congr_right mem_leafPages
  refine ⟨s', t₁.give (freed s₁ t₁ true (vpn va) k), hrun, ⟨⟨h.indexed, hc.kpt, h.root, hown, ?_⟩, ?_⟩⟩
  · have hf := hc.frame
    rw [hown] at hf
    exact h.frame.trans hf
  · intro w
    have hmap : lookup s'.mem (t₁.give (freed s₁ t₁ true (vpn va) k)) w = clearRange (lookup s₁.mem t₁) (vpn va) k w :=
      congrFun hc.map w
    rw [hmap]
    by_cases hw : vpn va ≤ w ∧ w < vpn va + k
    · refine Or.inr ⟨hw, ?_, clearRange_of_mem hw.1 hw.2⟩
      have := hinv (w - vpn va) (by omega)
      rwa [Nat.add_sub_cancel' hw.1] at this
    · rw [clearRange_of_not_mem (by omega)]
      exact Or.inl (h.same w (by omega))

theorem Taken.restored (h : Taken fl b s t v s' t' 0) : Restored s t v 0 s' t' where
  indexed := h.indexed
  kpt := h.kpt
  root := h.root
  own := by
    ext q
    rw [h.own]
    exact ⟨Or.inl, fun hq => hq.elim id fun ⟨_, hi, _⟩ => absurd hi (Nat.not_lt_zero _)⟩
  frame := h.frame
  map := fun w => Or.inl (h.same w (by omega))

/-! ## `uvmdealloc` -/

theorem PGROUNDUP_aligned (sz : Addr) : Aligned (PGROUNDUP sz) := by
  change (PGROUNDUP sz).toNat % 4096 = 0
  rw [PGROUNDUP, and_not_mask, BitVec.toNat_ofNat]
  omega

theorem PGROUNDUP_of_aligned (h : Aligned a) : PGROUNDUP a = a := by
  have hal : a.toNat % 4096 = 0 := h
  have hlt := a.isLt
  apply BitVec.eq_of_toNat_eq
  rw [PGROUNDUP_toNat (by omega)]
  omega

theorem int_pages (hk : k < 2 ^ 31) :
    BitVec.signExtend 64 (BitVec.setWidth 32 (BitVec.ofNat 64 k)) = BitVec.ofNat 64 k := by
  have hw : BitVec.setWidth 32 (BitVec.ofNat 64 k) = BitVec.ofNat 32 k := by
    apply BitVec.eq_of_toNat_eq
    rw [BitVec.toNat_setWidth, BitVec.toNat_ofNat, BitVec.toNat_ofNat]
    omega
  rw [hw]
  apply BitVec.eq_of_toNat_eq
  have hmsb : (BitVec.ofNat 32 k).msb = false := by
    rw [BitVec.msb_eq_false_iff_two_mul_lt, BitVec.toNat_ofNat]
    omega
  rw [BitVec.signExtend_eq_setWidth_of_msb_false hmsb, BitVec.toNat_setWidth, BitVec.toNat_ofNat, BitVec.toNat_ofNat]
  omega

theorem Taken.uvmdealloc (h : Taken fl b s t v s₁ t₁ k) (hsym : sym.Fits) (hpg : ∀ q ∈ t.own, IsPage sym q)
    {base : Addr} (hbase : base.toNat = 4096 * v) (ha : a.toNat = 4096 * (v + k)) (hmax : v + k ≤ 2 ^ 26)
    (hinv : ∀ i < k, lookup s.mem t (v + i) &&& PTE_V = 0) :
    ∃ r s' t', uvmdealloc sym (t.addr .root) a base s₁ = some (r, s') ∧ Restored s t v k s' t' := by
  have hal : Aligned a := by
    change a.toNat % 4096 = 0
    omega
  have hal' : Aligned base := by
    change base.toNat % 4096 = 0
    omega
  have hvpn : vpn base = v := by
    unfold vpn
    omega
  rcases Nat.eq_zero_or_pos k with rfl | hpos
  · have hge : base ≥ a := BitVec.le_def.mpr (by omega)
    refine ⟨a, s₁, t₁, ?_, h.restored⟩
    rw [Kernel.uvmdealloc, if_pos hge]
  · have hlt : base < a := BitVec.lt_def.mpr (by omega)
    have hge : ¬ base ≥ a := BitVec.not_le.mpr hlt
    have hcount : (a - base) / BitVec.ofNat 64 PGSIZE = BitVec.ofNat 64 k := by
      apply BitVec.eq_of_toNat_eq
      rw [BitVec.toNat_udiv, BitVec.toNat_sub_of_le (BitVec.le_of_lt hlt), ha, hbase,
        show (BitVec.ofNat 64 PGSIZE).toNat = 4096 from rfl, BitVec.toNat_ofNat]
      omega
    obtain ⟨s', t', hrun, hr⟩ := h.uvmunmap hsym hpg hal' hvpn hmax hinv
    refine ⟨base, s', t', ?_, hr⟩
    rw [Kernel.uvmdealloc, if_neg hge, PGROUNDUP_of_aligned hal, PGROUNDUP_of_aligned hal', if_pos hlt]
    simp only
    rw [hcount, int_pages (by omega), hrun]
    rfl

/-! ## Address spaces -/

theorem card_isPage {X : Finset Addr} (h : ∀ q ∈ X, IsPage sym q) : X.card ≤ 0x89000 := by
  have hinj : Set.InjOn (fun q : Addr => q.toNat / 4096) X := by
    intro q hq r hr he
    have hq' : q.toNat % 4096 = 0 := (h q hq).aligned
    have hr' : r.toNat % 4096 = 0 := (h r hr).aligned
    have he' : q.toNat / 4096 = r.toNat / 4096 := he
    apply BitVec.eq_of_toNat_eq
    omega
  have hsub : X.image (fun q : Addr => q.toNat / 4096) ⊆ Finset.range 0x89000 := by
    intro x hx
    obtain ⟨q, hq, rfl⟩ := Finset.mem_image.mp hx
    have hlt := BitVec.lt_def.mp (h q hq).lt_stop
    rw [show PHYSTOP.toNat = 0x89000000 from rfl] at hlt
    exact Finset.mem_range.mpr (by omega)
  have hcard := Finset.card_le_card hsub
  rwa [Finset.card_image_of_injOn hinj, Finset.card_range] at hcard

/-- An address space of `n` pages: each has a page of its own, and from there to the trap frame nothing is mapped. -/
structure Uspace (sym : Symbols) (root : Addr) (s : Kmem) (t : Pt) (n : ℕ) : Prop extends Known sym root s t where
  leaf : ∀ v < n, IsLeaf (lookup s.mem t v)
  page : ∀ v < n, IsPage sym (leafPage s t v)
  not_own : ∀ v < n, leafPage s t v ∉ t.own
  inj : ∀ v < n, ∀ w < n, leafPage s t v = leafPage s t w → v = w
  unmapped : ∀ v, n ≤ v → v < vpn TRAPFRAME → lookup s.mem t v &&& PTE_V = 0

/-- The first `n` pages and the ones from the trap frame on are mapped as before, and nobody has written to the first. -/
structure Kept (s : Kmem) (t : Pt) (n : ℕ) (s' : Kmem) (t' : Pt) : Prop where
  entry : ∀ v, v < n ∨ vpn TRAPFRAME ≤ v → lookup s'.mem t' v = lookup s.mem t v
  bytes : ∀ v < n, ∀ j < PGSIZE, s'.mem (off (leafPage s t v) j) = s.mem (off (leafPage s t v) j)

section Space
variable (h : Uspace sym root s t n)
include h

theorem Uspace.bound : n + t.own.card ≤ 0x89000 := by
  have hinj : Set.InjOn (leafPage s t) (Finset.range n) := fun v hv w hw =>
    h.inj v (Finset.mem_range.mp hv) w (Finset.mem_range.mp hw)
  have hd : Disjoint ((Finset.range n).image (leafPage s t)) t.own := by
    rw [Finset.disjoint_left]
    intro q hq
    obtain ⟨v, hv, rfl⟩ := Finset.mem_image.mp hq
    exact h.not_own v (Finset.mem_range.mp hv)
  have hall : ∀ q ∈ (Finset.range n).image (leafPage s t) ∪ t.own, IsPage sym q := by
    intro q hq
    rcases Finset.mem_union.mp hq with hq | hq
    · obtain ⟨v, hv, rfl⟩ := Finset.mem_image.mp hq
      exact h.page v (Finset.mem_range.mp hv)
    · exact h.isPage q hq
  have hcard := card_isPage hall
  rwa [Finset.card_union_of_disjoint hd, Finset.card_image_of_injOn hinj, Finset.card_range] at hcard

theorem Uspace.byte (hf : Frame (region t.own) s.mem m) {v : ℕ} (hv : v < n) (hj : j < PGSIZE) :
    m (off (leafPage s t v) j) = s.mem (off (leafPage s t v) j) := by
  have hd := page_disjoint_region (fun q hq => (h.isPage q hq).aligned) (h.page v hv).aligned (h.not_own v hv)
  exact hf.byte hd hj (by unfold PGSIZE at hj; omega)

theorem Uspace.kept (hf : Frame (region t.own) s.mem s'.mem)
    (hmap : ∀ v, v < n ∨ vpn TRAPFRAME ≤ v → lookup s'.mem t' v = lookup s.mem t v) : Kept s t n s' t' :=
  ⟨hmap, fun _ hv _ hj => h.byte hf hv hj⟩

theorem Uspace.restored (hr : Restored s t v k s' t') : Uspace sym root s' t' n := by
  have hmap : ∀ v < n, lookup s'.mem t' v = lookup s.mem t v := by
    intro v hv
    rcases hr.map v with he | ⟨_, hinv, _⟩
    · exact he
    · exact absurd hinv (h.leaf v hv).1
  have hpage : ∀ v < n, leafPage s' t' v = leafPage s t v := fun v hv => congrArg PTE2PA (hmap v hv)
  refine ⟨h.toKnown.step hr.toStep, ?_, ?_, ?_, ?_, ?_⟩
  · exact fun v hv => hmap v hv ▸ h.leaf v hv
  · exact fun v hv => hpage v hv ▸ h.page v hv
  · intro v hv
    rw [hpage v hv, hr.own]
    exact h.not_own v hv
  · intro v hv w hw he
    rw [hpage v hv, hpage w hw] at he
    exact h.inj v hv w hw he
  · intro v hn hv
    rcases hr.map v with he | ⟨_, _, h0⟩
    · rw [he]
      exact h.unmapped v hn hv
    · rw [h0]
      rfl

theorem Uspace.taken (ht : Taken fl b s t n s' t' k) : Uspace sym root s' t' (n + k) := by
  have hmap : ∀ v < n, lookup s'.mem t' v = lookup s.mem t v := fun v hv => ht.same v (Or.inl hv)
  have hpage : ∀ v < n, leafPage s' t' v = leafPage s t v := fun v hv => congrArg PTE2PA (hmap v hv)
  -- a page is one of the old ones or one of the new ones
  have hcases : ∀ {P : ℕ → Prop}, (∀ v < n, P v) → (∀ i < k, P (n + i)) → ∀ v < n + k, P v := by
    intro P hold hnew v hv
    by_cases hlt : v < n
    · exact hold v hlt
    · have := hnew (v - n) (by omega)
      rwa [Nat.add_sub_cancel' (by omega)] at this
  have hne : ∀ v < n, ∀ i < k, leafPage s' t' v ≠ leafPage s' t' (n + i) := by
    intro v hv i hi he
    rw [hpage v hv] at he
    exact h.not_own v hv (he ▸ ht.leafPage_mem hi)
  refine ⟨⟨ht.kpt, ht.indexed h.indexed, ht.root.trans h.root, fun q hq => h.isPage q (ht.own_subset hq)⟩, ?_, ?_, ?_, ?_,
    ?_⟩
  · exact hcases (fun v hv => hmap v hv ▸ h.leaf v hv) ht.leaf
  · exact hcases (fun v hv => hpage v hv ▸ h.page v hv) fun i hi => h.isPage _ (ht.leafPage_mem hi)
  · refine hcases (fun v hv hin => ?_) ht.fresh.not_own
    rw [hpage v hv] at hin
    exact h.not_own v hv (ht.own_subset hin)
  · refine hcases (fun v hv => hcases (fun w hw he => ?_) fun i hi he => ?_)
      fun i hi => hcases (fun w hw he => ?_) fun j hj he => ?_
    · rw [hpage v hv, hpage w hw] at he
      exact h.inj v hv w hw he
    · exact absurd he (hne v hv i hi)
    · exact absurd he.symm (hne w hw i hi)
    · rw [ht.fresh.inj i hi j hj he]
  · intro v hn hv
    rw [ht.same v (Or.inr hn)]
    exact h.unmapped v (by omega) hv

end Space

/-! ## `uvmalloc` -/

theorem vpn_TRAPFRAME : vpn TRAPFRAME = 2 ^ 26 - 2 := rfl

section Alloc
variable {xperm oldsz newsz : BitVec 64}

/-- What `uvmalloc` maps: zeroed pages with these flags. -/
abbrev Zeroed (xperm : BitVec 64) := Taken (fun _ => PTE_R ||| PTE_U ||| xperm ||| PTE_V) fun _ _ => 0

theorem user_flags (hx : xperm.toNat < 1024) : (PTE_R ||| PTE_U ||| xperm).toNat < 1024 := by
  rw [BitVec.toNat_or]
  exact Nat.or_lt_two_pow (n := 10) (by decide) hx

theorem user_flags_ne (xperm : BitVec 64) : PTE_R ||| PTE_U ||| xperm ||| PTE_V ≠ PTE_V := by
  intro he
  have h1 : (PTE_R ||| PTE_U ||| xperm ||| PTE_V).getLsbD 1 = PTE_V.getLsbD 1 := by rw [he]
  simp [PTE_R, PTE_V] at h1

theorem memset_zero_byte (m : Mem) (p : Addr) (hj : j < PGSIZE) : memset m p 0 PGSIZE (off p j) = 0 := by
  rw [memset_eq_put m p 0 (by decide)]
  exact put_off m p _ hj (by unfold PGSIZE at hj; omega)

/-- How `uvmalloc` ends: all of the pages, or none of them. -/
def Ended (xperm newsz : BitVec 64) (s : Kmem) (t : Pt) (n : ℕ) (r : BitVec 64) (s' : Kmem) : Prop :=
  (r = newsz ∧ ∃ k t', Zeroed xperm s t n s' t' k ∧ newsz.toNat ≤ 4096 * (n + k) ∧
      (k = 0 ∨ 4096 * (n + k) < newsz.toNat + 4096)) ∨
    (r = 0 ∧ ∃ k t', Restored s t n k s' t' ∧ n + k ≤ vpn TRAPFRAME)

/-- The loop of `uvmalloc`, by induction on its turns. -/
theorem Uspace.uvmallocLoop (h : Uspace sym root s t n) (hsym : sym.Fits) (hx : xperm.toNat < 1024) {base : Addr}
    (hbase : base.toNat = 4096 * n) (newsz : BitVec 64) (fuel : ℕ) (hz : Zeroed xperm s t n s₁ t₁ k)
    (ha : a.toNat = 4096 * (n + k)) (hfuel : newsz.toNat / 4096 + 2 ≤ k + fuel)
    (hk : k = 0 ∨ 4096 * (n + k) < newsz.toNat + 4096) :
    ∃ r s', uvmallocLoop sym root base newsz xperm fuel a s₁ = some (r, s') ∧ Ended xperm newsz s t n r s' := by
  have hroot := h.root
  subst hroot
  induction fuel generalizing k a s₁ t₁ with
  | zero => omega
  | succ fuel ih =>
    have hcard := hz.le_card
    have hbound := h.bound
    have htop := vpn_TRAPFRAME
    have hinv : ∀ i ≤ k, lookup s.mem t (n + i) &&& PTE_V = 0 := fun i hi => h.unmapped _ (by omega) (by omega)
    have hdealloc : ∀ {s₂ : Kmem} {t₂ : Pt}, Zeroed xperm s t n s₂ t₂ k →
        ∃ r s' t', uvmdealloc sym (t.addr .root) a base s₂ = some (r, s') ∧ Restored s t n k s' t' := fun hz₂ =>
      hz₂.uvmdealloc hsym h.isPage hbase ha (by omega) fun i hi => hinv i hi.le
    rw [Kernel.uvmallocLoop]
    by_cases hlt : a < newsz
    · rw [if_pos hlt]
      have hlt' := BitVec.lt_def.mp hlt
      simp only
      cases hfree : t₁.free with
      | nil =>
        have hpool := hz.kpt.pool
        rw [hfree] at hpool
        obtain ⟨r, s', t', hrun, hr⟩ := hdealloc hz
        rw [kalloc_nil hpool, if_pos rfl, hrun]
        exact ⟨0, s', rfl, Or.inr ⟨rfl, k, t', hr, by omega⟩⟩
      | cons p l =>
        have hpool := hz.kpt.pool
        rw [hfree] at hpool
        obtain ⟨hp, h0, _⟩ := kalloc_cons hpool
        have hal : Aligned a := by
          change a.toNat % 4096 = 0
          omega
        have hvpn : vpn a = n + k := by
          unfold vpn
          omega
        obtain ⟨s₂, hnext⟩ := hz.next hsym h.isPage hfree (memset_page_frame _ p 0) (fun _ => memset_zero_byte _ p) hal
          hvpn (by omega) (hinv k le_rfl) (user_flags hx) rfl (user_flags_ne xperm)
        rw [hp, if_neg h0]
        rcases hnext with ⟨hrun, t₂, hz₂⟩ | ⟨hrun, s₃, t₃, hfreed, hz₃⟩
        · rw [hrun]
          refine ih hz₂ ?_ (by omega) (Or.inr (by omega))
          rw [off_toNat _ _ (by unfold PGSIZE; omega), ha]
          unfold PGSIZE
          omega
        · obtain ⟨r, s', t', hrun', hr⟩ := hdealloc hz₃
          rw [hrun]
          refine ⟨0, s', ?_, Or.inr ⟨rfl, k, t', hr, by omega⟩⟩
          change (kfree sym p s₂).bind _ = _
          rw [hfreed]
          change (uvmdealloc sym (t.addr .root) a base s₃).bind _ = _
          rw [hrun']
          rfl
    · rw [if_neg hlt]
      have hge := BitVec.not_lt.mp hlt
      exact ⟨newsz, s₁, rfl, Or.inl ⟨rfl, k, t₁, hz, by rw [← ha]; exact BitVec.le_def.mp hge, hk⟩⟩

theorem pages_reached (hge : oldsz.toNat ≤ newsz.toNat) (hn : n = vpn (PGROUNDUP oldsz)) (hk : n + k ≤ 0x89000)
    (hle : newsz.toNat ≤ 4096 * (n + k)) (hlast : k = 0 ∨ 4096 * (n + k) < newsz.toNat + 4096) :
    n + k = vpn (PGROUNDUP newsz) := by
  have hold : (PGROUNDUP oldsz).toNat = _ := PGROUNDUP_toNat (by omega)
  have hnew : (PGROUNDUP newsz).toNat = _ := PGROUNDUP_toNat (by omega)
  unfold vpn at *
  omega

theorem Uspace.uvmalloc (h : Uspace sym root s t (vpn (PGROUNDUP oldsz))) (hsym : sym.Fits) (hx : xperm.toNat < 1024)
    (hge : ¬ newsz < oldsz) :
    ∃ r s', Kernel.uvmalloc sym root oldsz newsz xperm s = some (r, s') ∧
      Ended xperm newsz s t (vpn (PGROUNDUP oldsz)) r s' := by
  have hal : (PGROUNDUP oldsz).toNat % 4096 = 0 := PGROUNDUP_aligned oldsz
  have hbase : (PGROUNDUP oldsz).toNat = 4096 * vpn (PGROUNDUP oldsz) := by
    unfold vpn
    omega
  rw [Kernel.uvmalloc, if_neg hge]
  exact h.uvmallocLoop hsym hx hbase newsz (newsz.toNat / PGSIZE + 2) (Taken.zero h.kpt _ _ _) hbase
    (by unfold PGSIZE; omega) (Or.inl rfl)

/-- **`uvmalloc` is all or nothing.** -/
theorem uvmalloc_all_or_nothing (hsym : sym.Fits) (oldsz newsz xperm : BitVec 64)
    (h : Uspace sym root s t (vpn (PGROUNDUP oldsz))) (hx : xperm.toNat < 1024) :
    ∃ r s' t', uvmalloc sym root oldsz newsz xperm s = some (r, s') ∧ Kept s t (vpn (PGROUNDUP oldsz)) s' t' ∧
      ((r = (if newsz < oldsz then oldsz else newsz) ∧
          Uspace sym root s' t' (vpn (PGROUNDUP (if newsz < oldsz then oldsz else newsz))) ∧
          ∀ v, vpn (PGROUNDUP oldsz) ≤ v → v < vpn (PGROUNDUP (if newsz < oldsz then oldsz else newsz)) →
            PTE_FLAGS (lookup s'.mem t' v) = PTE_R ||| PTE_U ||| xperm ||| PTE_V ∧
              ∀ j < PGSIZE, s'.mem (off (leafPage s' t' v) j) = 0) ∨
        (r = 0 ∧ Uspace sym root s' t' (vpn (PGROUNDUP oldsz)) ∧
          ∀ p ∈ t.free, p ∈ t'.free ∨ ∃ a ∈ t'.dom, t'.addr a = p)) := by
  by_cases hlt : newsz < oldsz
  · refine ⟨oldsz, s, t, ?_, ⟨fun _ _ => rfl, fun _ _ _ _ => rfl⟩, Or.inl ⟨(if_pos hlt).symm, ?_, ?_⟩⟩
    · rw [uvmalloc, if_pos hlt]
    · rw [if_pos hlt]
      exact h
    · intro v hn hv
      rw [if_pos hlt] at hv
      omega
  · have hge := BitVec.le_def.mp (BitVec.not_lt.mp hlt)
    obtain ⟨r, s', hrun, hend⟩ := h.uvmalloc hsym hx hlt
    rw [if_neg hlt]
    rcases hend with ⟨rfl, k, t', hz, hle, hlast⟩ | ⟨rfl, k, t', hr, hk⟩
    · have hcard := hz.le_card
      have hbound := h.bound
      have hreach := pages_reached hge rfl (by omega) hle hlast
      refine ⟨r, s', t', hrun, h.kept hz.frame fun v hv => hz.same v ?_, Or.inl ⟨rfl, ?_, ?_⟩⟩
      · rw [vpn_TRAPFRAME] at hv
        omega
      · rw [← hreach]
        exact h.taken hz
      · intro v hn hv
        have hi : v - vpn (PGROUNDUP oldsz) < k := by omega
        have hflags := hz.flags _ hi
        have hbytes := hz.bytes _ hi
        rw [Nat.add_sub_cancel' hn] at hflags hbytes
        exact ⟨hflags, hbytes⟩
    · refine ⟨0, s', t', hrun, h.kept hr.frame fun v hv => ?_, Or.inr ⟨rfl, h.restored hr, ?_⟩⟩
      · rcases hr.map v with he | ⟨hin, _⟩
        · exact he
        · omega
      · intro p hp
        have hin := Pt.free_mem_own hp
        rw [← hr.own] at hin
        exact (Pt.mem_own.mp hin).symm

end Alloc

theorem Known.uspace (h : Known sym root s t) (h0 : ∀ v, lookup s.mem t v = 0) : Uspace sym root s t 0 where
  toKnown := h
  leaf := fun _ hv => absurd hv (Nat.not_lt_zero _)
  page := fun _ hv => absurd hv (Nat.not_lt_zero _)
  not_own := fun _ hv => absurd hv (Nat.not_lt_zero _)
  inj := fun _ hv => absurd hv (Nat.not_lt_zero _)
  unmapped := fun v _ _ => by
    rw [h0]
    rfl

theorem three_uspace : ∃ t, Uspace linked 0x88fff000#64 (uvmcreate threeFree).2 t 0 := by
  obtain ⟨s', hrun, ht, h0, _⟩ := uvmcreate_known threeFree_pool threePages_isPage
  rw [hrun]
  exact ⟨_, ht.uspace h0⟩

/-- Four pages asked for, from a table with two free pages. -/
theorem three_uvmalloc : ∃ t, Uspace linked 0x88fff000#64 (uvmcreate threeFree).2 t (vpn (PGROUNDUP 0)) ∧
    ∃ r s', uvmalloc linked 0x88fff000#64 0 0x4000#64 PTE_W (uvmcreate threeFree).2 = some (r, s') := by
  obtain ⟨t, ht⟩ := three_uspace
  obtain ⟨r, s', _, hrun, _⟩ := uvmalloc_all_or_nothing linked_fits 0 0x4000#64 PTE_W ht (by decide)
  exact ⟨t, ht, r, s', hrun⟩

end Xv6Boot.Kernel
