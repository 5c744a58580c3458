import Xv6Boot.Kernel.UserSpace

/-! # `growproc`

The size of a process and the pages below it. `sbrk` returns the old size if `growproc` does not return -1.
-/

namespace Xv6Boot.Kernel
open ByteMemory Pages

variable {sym : Symbols} {s s' : Kmem} {t t' : Pt} {root va : Addr} {v k n : ℕ} {sz oldsz newsz : BitVec 64}

/-- `p->pagetable`, `p->sz` and the argument; the returned value, `p->sz` afterwards and the memory. -/
def growproc (sym : Symbols) (pagetable : Addr) (sz : BitVec 64) (n : BitVec 32) (s : Kmem) :
    Option (ℤ × BitVec 64 × Kmem) :=
  if 0 < n.toInt then do
    let r ← uvmalloc sym pagetable sz (sz + n.signExtend 64) PTE_W s
    if r.1 = 0 then some (-1, sz, r.2) else some (0, r.1, r.2)
  else if n.toInt < 0 then do
    let r ← uvmdealloc sym pagetable sz (sz + n.signExtend 64) s
    some (0, r.1, r.2)
  else some (0, sz, s)

/-! ## Sizes -/

def pagesOf (sz : BitVec 64) : ℕ := (sz.toNat + 4095) / 4096

theorem toNat_add_int (sz : BitVec 64) (n : BitVec 32) :
    ((sz + n.signExtend 64).toNat : ℤ) = ((sz.toNat : ℤ) + n.toInt) % 2 ^ 64 := by
  rw [BitVec.toNat_add, BitVec.signExtend, BitVec.toNat_ofInt]
  push_cast
  omega

section Size
variable (h : Uspace sym root s t (pagesOf sz))
include h

theorem Uspace.size_le : sz.toNat ≤ 0x89000000 := by
  have := h.bound
  unfold pagesOf at this
  omega

theorem Uspace.size_pages : vpn (PGROUNDUP sz) = pagesOf sz := by
  have := h.size_le
  rw [vpn, PGROUNDUP_toNat (by omega), pagesOf]
  omega

end Size

/-! ## Shrinking -/

/-- The first `n` pages are mapped as before and have the same bytes. -/
def Survives (s : Kmem) (t : Pt) (s' : Kmem) (t' : Pt) (n : ℕ) : Prop :=
  ∀ v < n, lookup s'.mem t' v = lookup s.mem t v ∧
    ∀ j < PGSIZE, s'.mem (off (leafPage s t v) j) = s.mem (off (leafPage s t v) j)

theorem Survives.refl (s : Kmem) (t : Pt) (n : ℕ) : Survives s t s t n := fun _ _ => ⟨rfl, fun _ _ => rfl⟩

theorem Uspace.cleared (h : Uspace sym root s t (v + k)) (hc : Cleared s t true v k s') :
    Uspace sym root s' (t.give (leafPages s t v k)) v ∧ Survives s t s' (t.give (leafPages s t v k)) v := by
  have hown : ∀ q, q ∈ (t.give (leafPages s t v k)).own ↔ q ∈ t.own ∨ ∃ i < k, leafPage s t (v + i) = q := fun q => by
    rw [Pt.mem_give, mem_leafPages]
  have hmap : ∀ w, w < v ∨ v + k ≤ w → lookup s'.mem (t.give (leafPages s t v k)) w = lookup s.mem t w := by
    intro w hw
    exact (congrFun hc.map w).trans (clearRange_of_not_mem hw)
  have hpage : ∀ w < v, leafPage s' (t.give (leafPages s t v k)) w = leafPage s t w := fun w hw =>
    congrArg PTE2PA (hmap w (Or.inl hw))
  have hnot : ∀ w < v, leafPage s t w ∉ (t.give (leafPages s t v k)).own := by
    intro w hw hin
    rcases (hown _).mp hin with hin | ⟨i, hi, he⟩
    · exact h.not_own w (by omega) hin
    · have := h.inj (v + i) (by omega) w (by omega) he
      omega
  have hisPage : ∀ q ∈ (t.give (leafPages s t v k)).own, IsPage sym q := by
    intro q hq
    rcases (hown q).mp hq with hq | ⟨i, hi, rfl⟩
    · exact h.isPage q hq
    · exact h.page _ (by omega)
  refine ⟨⟨⟨hc.kpt, h.indexed, h.root, hisPage⟩, ?_, ?_, ?_, ?_, ?_⟩, fun w hw => ⟨hmap w (Or.inl hw), fun j hj => ?_⟩⟩
  · intro w hw
    rw [hmap w (Or.inl hw)]
    exact h.leaf w (by omega)
  · intro w hw
    rw [hpage w hw]
    exact h.page w (by omega)
  · intro w hw
    rw [hpage w hw]
    exact hnot w hw
  · intro w hw w' hw' he
    rw [hpage w hw, hpage w' hw'] at he
    exact h.inj w (by omega) w' (by omega) he
  · intro w hw hw'
    by_cases hk : w < v + k
    · have := (congrFun hc.map w).trans (clearRange_of_mem hw hk)
      rw [show lookup s'.mem (t.give (leafPages s t v k)) w = 0 from this]
      rfl
    · rw [hmap w (Or.inr (by omega))]
      exact h.unmapped w (by omega) hw'
  · have hd := page_disjoint_region (fun q hq => (hisPage q hq).aligned) (h.page w (by omega)).aligned (hnot w hw)
    exact hc.frame.byte hd hj (by unfold PGSIZE at hj; omega)

theorem Uspace.uvmdealloc (h : Uspace sym root s t (pagesOf oldsz)) (hsym : sym.Fits) (hlt : newsz < oldsz) :
    ∃ s' t', Kernel.uvmdealloc sym root oldsz newsz s = some (newsz, s') ∧ Uspace sym root s' t' (pagesOf newsz) ∧
      Survives s t s' t' (pagesOf newsz) := by
  have hle := h.size_le
  have hlt' := BitVec.lt_def.mp hlt
  have hold : (PGROUNDUP oldsz).toNat = 4096 * pagesOf oldsz := by
    rw [PGROUNDUP_toNat (by omega), pagesOf, Nat.mul_comm]
  have hnew : (PGROUNDUP newsz).toNat = 4096 * pagesOf newsz := by
    rw [PGROUNDUP_toNat (by omega), pagesOf, Nat.mul_comm]
  have hpages : pagesOf newsz ≤ pagesOf oldsz := by
    unfold pagesOf
    omega
  rw [Kernel.uvmdealloc, if_neg (BitVec.not_le.mpr hlt)]
  by_cases hp : PGROUNDUP newsz < PGROUNDUP oldsz
  · obtain ⟨k, hk⟩ := Nat.exists_eq_add_of_le hpages
    have hbound := h.bound
    rw [hk] at h
    have hcount : (PGROUNDUP oldsz - PGROUNDUP newsz) / BitVec.ofNat 64 PGSIZE = BitVec.ofNat 64 k := by
      apply BitVec.eq_of_toNat_eq
      rw [BitVec.toNat_udiv, BitVec.toNat_sub_of_le (BitVec.le_of_lt hp), hold, hnew,
        show (BitVec.ofNat 64 PGSIZE).toNat = 4096 from rfl, BitVec.toNat_ofNat]
      omega
    have hvpn : vpn (PGROUNDUP newsz) = pagesOf newsz := by
      rw [vpn, hnew]
      omega
    have hfresh : Fresh s t (pagesOf newsz) k :=
      ⟨fun i hi => h.not_own _ (by omega), fun i hi j hj he => by
        have := h.inj _ (by omega) _ (by omega) he
        omega⟩
    obtain ⟨s', hrun, hc⟩ := h.kpt.uvmunmap hsym (PGROUNDUP_aligned newsz) (k := k) (by omega)
      (by rw [hvpn]; exact fun i hi => h.leaf _ (by omega)) (by rw [hvpn]; exact fun _ i hi => h.page _ (by omega))
      (by rw [hvpn]; exact fun _ => hfresh)
    rw [hvpn] at hc
    rw [h.root] at hrun
    obtain ⟨hu, hs⟩ := h.cleared hc
    refine ⟨s', _, ?_, hu, hs⟩
    rw [if_pos hp, hcount]
    simp only
    rw [int_pages (by omega), hrun]
    rfl
  · have he : pagesOf newsz = pagesOf oldsz := by
      have := BitVec.le_def.mp (BitVec.not_lt.mp hp)
      omega
    rw [if_neg hp, he]
    exact ⟨s, t, rfl, h, Survives.refl s t _⟩

/-! ## `growproc` -/

/-- What a call may report about a process of size `sz`. -/
def Reported (sym : Symbols) (root : Addr) (sz : BitVec 64) (n : BitVec 32) (s : Kmem) (t : Pt) (r : ℤ) (sz' : BitVec 64)
    (s' : Kmem) : Prop :=
  (r = 0 ∧ (sz'.toNat : ℤ) = sz.toNat + n.toInt ∧ ∃ t', Uspace sym root s' t' (pagesOf sz') ∧
      Survives s t s' t' (min (pagesOf sz) (pagesOf sz'))) ∨
    (r = -1 ∧ sz' = sz ∧ ∃ t', Uspace sym root s' t' (pagesOf sz) ∧ Survives s t s' t' (pagesOf sz))

section Grow
variable (h : Uspace sym root s t (pagesOf sz))
include h

theorem growproc_positive (hsym : sym.Fits) {d : BitVec 32} (hd : 0 < d.toInt) :
    ∃ r sz' s', growproc sym root sz d s = some (r, sz', s') ∧ Reported sym root sz d s t r sz' s' := by
  have hle := h.size_le
  have hadd := toNat_add_int sz d
  have hmax : d.toInt < 2 ^ 31 := BitVec.toInt_lt
  have hsum : ((sz + d.signExtend 64).toNat : ℤ) = sz.toNat + d.toInt := by omega
  have hge : ¬ sz + d.signExtend 64 < sz := by
    rw [BitVec.lt_def]
    omega
  have hvpn := h.size_pages
  rw [← hvpn] at h
  have hbound := h.bound
  obtain ⟨r, s', hrun, hend⟩ := h.uvmalloc hsym (show PTE_W.toNat < 1024 by decide) hge
  rw [growproc, if_pos hd, hrun]
  change ∃ r sz' s', (if _ = 0 then _ else _) = _ ∧ _
  rcases hend with ⟨rfl, k, t', hz, hle', hlast⟩ | ⟨rfl, k, t', hr, hk⟩
  · have hcard := hz.le_card
    have hreach := pages_reached (BitVec.le_def.mp (BitVec.not_lt.mp hge)) rfl (by omega) hle' hlast
    have hne : sz + d.signExtend 64 ≠ 0 := by
      intro he
      rw [he, show (0 : BitVec 64).toNat = 0 from rfl] at hsum
      omega
    have hnew : vpn (PGROUNDUP (sz + d.signExtend 64)) = pagesOf (sz + d.signExtend 64) := by
      rw [vpn, PGROUNDUP_toNat (by omega), pagesOf]
      omega
    refine ⟨0, _, s', if_neg hne, Or.inl ⟨rfl, hsum, t', ?_, ?_⟩⟩
    · rw [← hnew, ← hreach]
      exact h.taken hz
    · intro v hv
      have hv' : v < vpn (PGROUNDUP sz) := by omega
      exact ⟨hz.same v (Or.inl hv'), fun j hj => h.byte hz.frame hv' hj⟩
  · refine ⟨-1, sz, s', if_pos rfl, Or.inr ⟨rfl, rfl, t', ?_, ?_⟩⟩
    · rw [← hvpn]
      exact h.restored hr
    · intro v hv
      have hv' : v < vpn (PGROUNDUP sz) := by omega
      refine ⟨?_, fun j hj => h.byte hr.frame hv' hj⟩
      rcases hr.map v with he | ⟨hin, _⟩
      · exact he
      · omega

theorem growproc_negative (hsym : sym.Fits) {d : BitVec 32} (hd : d.toInt < 0) (hge : 0 ≤ (sz.toNat : ℤ) + d.toInt) :
    ∃ r sz' s', growproc sym root sz d s = some (r, sz', s') ∧ Reported sym root sz d s t r sz' s' := by
  have hle := h.size_le
  have hadd := toNat_add_int sz d
  have hsum : ((sz + d.signExtend 64).toNat : ℤ) = sz.toNat + d.toInt := by omega
  have hlt : sz + d.signExtend 64 < sz := BitVec.lt_def.mpr (by omega)
  obtain ⟨s', t', hrun, hu, hs⟩ := h.uvmdealloc hsym hlt
  have hmin : min (pagesOf sz) (pagesOf (sz + d.signExtend 64)) = pagesOf (sz + d.signExtend 64) := by
    refine min_eq_right ?_
    unfold pagesOf
    omega
  refine ⟨0, _, s', ?_, Or.inl ⟨rfl, hsum, t', hu, ?_⟩⟩
  · rw [growproc, if_neg (by omega), if_pos hd, hrun]
    rfl
  · rw [hmin]
    exact hs

theorem growproc_wraps {d : BitVec 32} (hlt : (sz.toNat : ℤ) + d.toInt < 0) : growproc sym root sz d s = some
    (0, sz, s) := by
  have hle := h.size_le
  have hadd := toNat_add_int sz d
  have hmin : -2 ^ 31 ≤ d.toInt := BitVec.le_toInt d
  have hsum : ((sz + d.signExtend 64).toNat : ℤ) = 2 ^ 64 + sz.toNat + d.toInt := by omega
  have hge : sz + d.signExtend 64 ≥ sz := BitVec.le_def.mpr (by omega)
  rw [growproc, if_neg (by omega), if_pos (by omega), uvmdealloc, if_pos hge]
  rfl

end Grow

/-- **`growproc` does what it reports** exactly when the new size is not negative. -/
theorem growproc_reports_iff (hsym : sym.Fits) (h : Uspace sym root s t (pagesOf sz)) (d : BitVec 32) :
    (∃ r sz' s', growproc sym root sz d s = some (r, sz', s') ∧ Reported sym root sz d s t r sz' s') ↔
      0 ≤ (sz.toNat : ℤ) + d.toInt := by
  constructor
  · rintro ⟨r, sz', s', hrun, hrep⟩
    by_contra hlt
    rw [growproc_wraps h (by omega)] at hrun
    cases hrun
    rcases hrep with ⟨_, hsum, _⟩ | ⟨hr, _⟩
    · omega
    · exact absurd hr (by decide)
  · intro hge
    rcases lt_trichotomy d.toInt 0 with hd | hd | hd
    · exact growproc_negative h hsym hd hge
    · refine ⟨0, sz, s, ?_, Or.inl ⟨rfl, by omega, t, h, Survives.refl s t _⟩⟩
      rw [growproc, if_neg (by omega), if_neg (by omega)]
    · exact growproc_positive h hsym hd

/-- A process of no pages, and room for one. -/
theorem three_growproc : ∃ t, Uspace linked 0x88fff000#64 (uvmcreate threeFree).2 t (pagesOf 0) ∧
    ∃ r sz' s', growproc linked 0x88fff000#64 0 4096 (uvmcreate threeFree).2 = some (r, sz', s') ∧
      Reported linked 0x88fff000#64 0 4096 (uvmcreate threeFree).2 t r sz' s' := by
  obtain ⟨t, ht⟩ := three_uspace
  exact ⟨t, ht, (growproc_reports_iff linked_fits ht 4096).mpr (by decide)⟩

/-- `growproc(-1)` in the same process returns 0. -/
theorem three_growproc_wraps : (∃ t, Uspace linked 0x88fff000#64 (uvmcreate threeFree).2 t (pagesOf 0)) ∧
    growproc linked 0x88fff000#64 0 (-1) (uvmcreate threeFree).2 = some (0, 0, (uvmcreate threeFree).2) ∧
    ((0 : BitVec 64).toNat : ℤ) ≠ (0 : BitVec 64).toNat + (-1 : BitVec 32).toInt := by
  obtain ⟨t, ht⟩ := three_uspace
  exact ⟨⟨t, ht⟩, growproc_wraps (t := t) ht (by decide), by decide⟩

end Xv6Boot.Kernel
