import Xv6Boot.Kernel.Mapping
import Xv6Boot.Kernel.Uvm

/-! # Page tables built with `mappages`, `uvmunmap` and `uvmclear`

The pages of a table and of the free list are its own pages. `walk` moves pages from the free list into the table and
writes nothing else. `mappages` changes the map at its range or, out of memory, at the first pages of it; `uvmunmap`
takes its range out and gives the pages to the free list, where they must not be already.
-/

namespace Xv6Boot.Kernel
open Function ByteMemory Loop StringC Pages

variable {sym : Symbols} {s s₁ s' s'' : Kmem} {t t₁ t' t'' : Pt} {p q a va pa : Addr} {l : List Addr} {v n : ℕ}
  {perm : BitVec 64}

/-! ## Entries -/

theorem PTE_FLAGS_toNat (x : BitVec 64) : (PTE_FLAGS x).toNat = x.toNat % 1024 := by
  rw [PTE_FLAGS, BitVec.toNat_and]
  exact Nat.and_two_pow_sub_one_eq_mod x.toNat 10

theorem PTE_FLAGS_PA2PTE_or (p : Addr) {f : BitVec 64} (hf : f.toNat < 1024) : PTE_FLAGS (PA2PTE p ||| f) = f := by
  apply BitVec.eq_of_toNat_eq
  rw [PTE_FLAGS_toNat, PA2PTE_or_toNat p hf]
  omega

theorem zero_and_PTE_V : (0 : BitVec 64) &&& PTE_V = 0 := rfl

theorem or_PTE_V_lt (hperm : perm.toNat < 1024) : (perm ||| PTE_V).toNat < 1024 := by
  rw [BitVec.toNat_or]
  exact Nat.or_lt_two_pow (n := 10) hperm (by decide)

/-! ## The pages of a table -/

def Pt.own (t : Pt) : Finset Addr := t.dom.image t.addr ∪ t.free.toFinset

theorem Pt.mem_own : p ∈ t.own ↔ (∃ a ∈ t.dom, t.addr a = p) ∨ p ∈ t.free := by
  simp [Pt.own]

theorem Pt.addr_mem_own {a : Node} (ha : a ∈ t.dom) : t.addr a ∈ t.own := Pt.mem_own.mpr (Or.inl ⟨a, ha, rfl⟩)

theorem Pt.free_mem_own (hp : p ∈ t.free) : p ∈ t.own := Pt.mem_own.mpr (Or.inr hp)

theorem Kpt.own_aligned (h : Kpt s t) (hp : p ∈ t.own) : Aligned p := by
  rcases Pt.mem_own.mp hp with ⟨a, ha, rfl⟩ | hf
  · exact h.aligned a ha
  · exact h.pool.aligned p hf

theorem Pt.extend_own {c : Node} (hc : c ∉ t.dom) (hfree : t.free = p :: l) : (t.extend c p l).own = t.own := by
  ext q
  rw [Pt.mem_own, Pt.mem_own, hfree, List.mem_cons]
  constructor
  · rintro (⟨a, ha, rfl⟩ | hq)
    · rcases Pt.mem_extend.mp ha with rfl | ha
      · rw [Pt.extend_addr_self]
        exact Or.inr (Or.inl rfl)
      · rw [Pt.extend_addr_mem hc ha]
        exact Or.inl ⟨a, ha, rfl⟩
    · exact Or.inr (Or.inr hq)
  · rintro (⟨a, ha, rfl⟩ | rfl | hq)
    · exact Or.inl ⟨a, Pt.mem_extend.mpr (Or.inr ha), Pt.extend_addr_mem hc ha p l⟩
    · exact Or.inl ⟨c, Pt.mem_extend.mpr (Or.inl rfl), Pt.extend_addr_self t c q l⟩
    · exact Or.inr hq

def Node.Indexed : Node → Prop
  | .root => True
  | .mid i => i < 512
  | .leaf i j => i < 512 ∧ j < 512

def Pt.Indexed (t : Pt) : Prop := ∀ a ∈ t.dom, a.Indexed

theorem Node.Indexed.child {b : Node} (hb : b.Indexed) {i : ℕ} (hi : i < 512) : (b.child i).Indexed := by
  cases b with
  | root => exact hi
  | mid j => exact ⟨hb, hi⟩
  | leaf j k => exact hb

theorem Pt.Indexed.extend (h : t.Indexed) {b : Node} (hb : b ∈ t.dom) {i : ℕ} (hi : i < 512) :
    (t.extend (b.child i) p l).Indexed := by
  intro c hc
  rcases Pt.mem_extend.mp hc with rfl | hc
  · exact (h b hb).child hi
  · exact h c hc

/-- A change inside the table's own pages that keeps them. -/
structure Step (s : Kmem) (t : Pt) (s' : Kmem) (t' : Pt) : Prop where
  indexed : t.Indexed → t'.Indexed
  kpt : Kpt s' t'
  root : t'.addr .root = t.addr .root
  own : t'.own = t.own
  frame : Frame (region t.own) s.mem s'.mem

theorem Step.refl (h : Kpt s t) : Step s t s t := ⟨id, h, rfl, rfl, Frame.refl _ _⟩

theorem Step.trans (h : Step s t s' t') (h' : Step s' t' s'' t'') : Step s t s'' t'' :=
  ⟨fun hi => h'.indexed (h.indexed hi), h'.kpt, h'.root.trans h.root, h'.own.trans h.own, h.frame.trans (h.own ▸ h'.frame)⟩

/-- New tables without entries. -/
structure Grow (s : Kmem) (t : Pt) (s' : Kmem) (t' : Pt) : Prop extends Step s t s' t' where
  dom : t.dom ⊆ t'.dom
  map : ∀ v, lookup s'.mem t' v = lookup s.mem t v

theorem Grow.refl (h : Kpt s t) : Grow s t s t := ⟨Step.refl h, subset_rfl, fun _ => rfl⟩

theorem Grow.trans (h : Grow s t s' t') (h' : Grow s' t' s'' t'') : Grow s t s'' t'' :=
  ⟨h.toStep.trans h'.toStep, h.dom.trans h'.dom, fun v => (h'.map v).trans (h.map v)⟩

/-! ## `walk` -/

theorem Kpt.walkLevel (h : Kpt s t) {b : Node} (hb : b ∈ t.dom) (hlev : b.level ≠ 0) (va : Addr) (level : ℕ) :
    ∃ s' t', Grow s t s' t' ∧
      ((walkLevel true va level (t.addr b) s = (some (t'.addr (b.child (PX level va))), s') ∧
          b.child (PX level va) ∈ t'.dom) ∨
        (walkLevel true va level (t.addr b) s = (none, s') ∧ t'.free = [] ∧ b.child (PX level va) ∉ t'.dom)) := by
  by_cases hc : b.child (PX level va) ∈ t.dom
  · exact ⟨s, t, Grow.refl h, Or.inl ⟨walkLevel_found h hb hlev true hc, hc⟩⟩
  · cases hfree : t.free with
    | nil =>
      refine ⟨s, t, Grow.refl h, Or.inr ⟨?_, hfree, hc⟩⟩
      have hl := h.table.link b hb hlev _ (PX_lt level va)
      rw [if_neg hc, pteAt] at hl
      have hpool := h.pool
      rw [hfree] at hpool
      unfold Kernel.walkLevel
      dsimp only
      rw [hl, if_neg zero_invalid, kalloc_nil hpool]
      rfl
    | cons p l =>
      obtain ⟨s', hw, hkpt, hmap, hf⟩ := walkLevel_alloc h hfree hb hlev hc
      refine ⟨s', _, ⟨⟨fun hi => hi.extend hb (PX_lt level va), hkpt, ?_, Pt.extend_own hc hfree, hf.mono ?_⟩,
        Finset.subset_insert _ _, hmap⟩,
        Or.inl ⟨?_, Pt.mem_extend.mpr (Or.inl rfl)⟩⟩
      · exact Pt.extend_addr_ne t (Node.child_ne_root _).symm p l
      · exact Set.union_subset (page_subset_region (Pt.free_mem_own (Pt.head_mem hfree)))
          (page_subset_region (Pt.addr_mem_own hb))
      · rw [hw, Pt.extend_addr_self]

/-- Where `walk` finds the entry of a page. -/
def Pt.slot (t : Pt) (v : ℕ) : Addr := off (t.addr (leafOf v)) (8 * (v % 512))

theorem Kpt.walk_alloc (h : Kpt s t) (hva : va < MAXVA) :
    ∃ s' t', Grow s t s' t' ∧
      ((walk (t.addr .root) va true s = some (t'.slot (vpn va), s') ∧ leafOf (vpn va) ∈ t'.dom) ∨
        (walk (t.addr .root) va true s = some (0, s') ∧ t'.free = [] ∧ leafOf (vpn va) ∉ t.dom)) := by
  obtain ⟨s1, t1, hg1, hcase⟩ := h.walkLevel h.table.root_mem (by decide) va 2
  rw [← midOf_vpn hva] at hcase
  rcases hcase with ⟨hw1, hm1⟩ | ⟨hw1, hnil, hno⟩
  · obtain ⟨s2, t2, hg2, hcase⟩ := hg1.kpt.walkLevel hm1 (midOf_level _) va 1
    rw [← leafOf_vpn] at hcase
    rcases hcase with ⟨hw2, hm2⟩ | ⟨hw2, hnil, hno⟩
    · exact ⟨s2, t2, hg1.trans hg2, Or.inl ⟨walk_eq hva ((walkLoop_some hw1).trans (walkLoop_some hw2)), hm2⟩⟩
    · exact ⟨s2, t2, hg1.trans hg2, Or.inr ⟨walk_eq hva ((walkLoop_some hw1).trans (walkLoop_none hw2)), hnil,
        fun hm => hno (hg2.dom (hg1.dom hm))⟩⟩
  · exact ⟨s1, t1, hg1, Or.inr ⟨walk_eq hva (walkLoop_none hw1), hnil,
      fun hm => hno (hg1.dom (h.table.mid_mem _ _ hm))⟩⟩

theorem walk_eq_none (hva : ¬ va < MAXVA) (root : Addr) (alloc : Bool) : walk root va alloc s = none := by
  rw [walk, if_pos (BitVec.not_lt.mp hva)]

theorem leafOf_mem (h : lookup s.mem t v ≠ 0) : leafOf v ∈ t.dom := by
  by_contra hm
  exact h (if_neg hm)

theorem load_slot (hm : leafOf v ∈ t.dom) : load 64 s.mem (t.slot v) = lookup s.mem t v := (if_pos hm).symm

theorem Kpt.slot_ne (h : Kpt s t) (hm : leafOf v ∈ t.dom) : t.slot v ≠ 0 :=
  h.slot_ne_zero hm (Nat.mod_lt _ (by norm_num))

theorem Kpt.walk_slot (h : Kpt s t) (hva : va < MAXVA) :
    walk (t.addr .root) va false s = some (if leafOf (vpn va) ∈ t.dom then t.slot (vpn va) else 0, s) := by
  rw [walk_eq hva (h.walkLoop_false hva)]
  split <;> rfl

/-! ## One entry -/

theorem Kpt.store_step (h : Kpt s t) (hm : leafOf v ∈ t.dom) (x : BitVec 64) :
    Step s t ⟨store s.mem (t.slot v) x, s.freelist⟩ t where
  indexed := id
  kpt := h.store_leaf hm x
  root := rfl
  own := rfl
  frame := ((store64_frame _ _ _).mono (slot_subset _ (Nat.mod_lt _ (by norm_num)))).mono
    (page_subset_region (Pt.addr_mem_own hm))

theorem Kpt.store_map (h : Kpt s t) (hm : leafOf v ∈ t.dom) (x : BitVec 64) (w : ℕ) :
    lookup (store s.mem (t.slot v) x) t w = update (lookup s.mem t) v x w := lookup_store_leaf h hm x w

theorem Kpt.mapPage (h : Kpt s t) (perm : BitVec 64) (a pa : Addr) :
    (mapPage (t.addr .root) perm a pa s = none ∧ (¬ a < MAXVA ∨ lookup s.mem t (vpn a) &&& PTE_V ≠ 0)) ∨
    (a < MAXVA ∧ lookup s.mem t (vpn a) &&& PTE_V = 0 ∧ ∃ s' t', Step s t s' t' ∧
      ((mapPage (t.addr .root) perm a pa s = some (true, s') ∧
          lookup s'.mem t' = update (lookup s.mem t) (vpn a) (PA2PTE pa ||| perm ||| PTE_V)) ∨
        (mapPage (t.addr .root) perm a pa s = some (false, s') ∧ lookup s'.mem t' = lookup s.mem t ∧ t'.free = []))) := by
  by_cases ha : a < MAXVA
  · obtain ⟨s1, t1, hg, ⟨hw, hm⟩ | ⟨hw, hnil, hno⟩⟩ := h.walk_alloc ha
    · have hload : load 64 s1.mem (t1.slot (vpn a)) = lookup s.mem t (vpn a) := (load_slot hm).trans (hg.map _)
      by_cases hV : lookup s.mem t (vpn a) &&& PTE_V = 0
      · refine Or.inr ⟨ha, hV, ⟨store s1.mem (t1.slot (vpn a)) (PA2PTE pa ||| perm ||| PTE_V), s1.freelist⟩, t1,
          hg.toStep.trans (hg.kpt.store_step hm _), Or.inl ⟨?_, ?_⟩⟩
        · rw [Kernel.mapPage, hw]
          simp only [Option.bind_eq_bind, Option.bind_some]
          rw [if_neg (hg.kpt.slot_ne hm), hload, if_neg (not_not.mpr hV)]
        · funext w
          rw [hg.kpt.store_map hm]
          simp only [update_apply, hg.map]
      · refine Or.inl ⟨?_, Or.inr hV⟩
        rw [Kernel.mapPage, hw]
        simp only [Option.bind_eq_bind, Option.bind_some]
        rw [if_neg (hg.kpt.slot_ne hm), hload, if_pos hV]
    · have hz : lookup s.mem t (vpn a) = 0 := if_neg hno
      refine Or.inr ⟨ha, by rw [hz]; rfl, s1, t1, hg.toStep, Or.inr ⟨?_, funext hg.map, hnil⟩⟩
      rw [Kernel.mapPage, hw]
      rfl
  · refine Or.inl ⟨?_, Or.inl ha⟩
    rw [Kernel.mapPage, walk_eq_none ha]
    rfl

/-! ## `mappages` -/

theorem lt_MAXVA_iff {a : Addr} : a < MAXVA ↔ vpn a < 2 ^ 26 := by
  rw [BitVec.lt_def, MAXVA_toNat, vpn]
  omega

theorem mapRange_zero (f : ℕ → BitVec 64) (v : ℕ) (pa : Addr) (perm : BitVec 64) : mapRange f v 0 pa perm = f :=
  funext fun _ => mapRange_of_not_mem (by omega)

theorem mapRange_one (f : ℕ → BitVec 64) (v : ℕ) (pa : Addr) (perm : BitVec 64) :
    mapRange f v 1 pa perm = update f v (PA2PTE pa ||| perm ||| PTE_V) := by
  rw [← mapRange_succ, mapRange_zero]

theorem vpn_next (ha : a < MAXVA) : vpn (off a PGSIZE) = vpn a + 1 := by
  rw [BitVec.lt_def, MAXVA_toNat] at ha
  have hoff : (off a PGSIZE).toNat = a.toNat + 4096 := off_toNat _ _ (by unfold PGSIZE; omega)
  unfold vpn
  omega

/-- What the endless loop of `mappages` does with the pages from `a` to `last`. -/
theorem Kpt.mapLoop (h : Kpt s t) (perm : BitVec 64) (n : ℕ) (a pa : Addr) {last : Addr}
    (hn : PGSIZE * n < 2 ^ 64) (hlast : last = off a (PGSIZE * n)) :
    (mapLoop (t.addr .root) perm last (n + 1) a pa s = none ∧
      ∃ i ≤ n, 2 ^ 26 ≤ vpn a + i ∨ lookup s.mem t (vpn a + i) &&& PTE_V ≠ 0) ∨
    (vpn a + n < 2 ^ 26 ∧ ∃ s' t', mapLoop (t.addr .root) perm last (n + 1) a pa s = some (0, s') ∧ Step s t s' t' ∧
      lookup s'.mem t' = mapRange (lookup s.mem t) (vpn a) (n + 1) pa perm) ∨
    ∃ j ≤ n, vpn a + j < 2 ^ 26 ∧ ∃ s' t', mapLoop (t.addr .root) perm last (n + 1) a pa s = some (-1, s') ∧
      Step s t s' t' ∧ lookup s'.mem t' = mapRange (lookup s.mem t) (vpn a) j pa perm ∧ t'.free = [] := by
  induction n generalizing s t a pa with
  | zero =>
    rw [Nat.mul_zero, off_zero] at hlast
    rcases h.mapPage perm a pa with ⟨hp, hbad⟩ | ⟨ha, hV, s', t', hstep, ⟨hp, hmap⟩ | ⟨hp, hmap, hnil⟩⟩
    · refine Or.inl ⟨?_, 0, le_rfl, ?_⟩
      · rw [Kernel.mapLoop, hp]
        rfl
      · rw [lt_MAXVA_iff] at hbad
        exact hbad.imp_left fun hge => by omega
    · refine Or.inr (Or.inl ⟨lt_MAXVA_iff.mp ha, s', t', ?_, hstep, ?_⟩)
      · rw [Kernel.mapLoop, hp, hlast]
        simp
      · rw [hmap, mapRange_one]
    · refine Or.inr (Or.inr ⟨0, le_rfl, lt_MAXVA_iff.mp ha, s', t', ?_, hstep, ?_, hnil⟩)
      · rw [Kernel.mapLoop, hp]
        rfl
      · rw [hmap, mapRange_zero]
  | succ n ih =>
    have hne : a ≠ last := by
      intro he
      rw [hlast] at he
      have := off_injective a (j := 0) (k := PGSIZE * (n + 1)) (by norm_num) hn (by rw [off_zero]; exact he)
      unfold PGSIZE at this
      omega
    rcases h.mapPage perm a pa with ⟨hp, hbad⟩ | ⟨ha, hV, s1, t1, hstep, ⟨hp, hmap⟩ | ⟨hp, hmap, hnil⟩⟩
    · refine Or.inl ⟨?_, 0, Nat.zero_le _, ?_⟩
      · rw [Kernel.mapLoop, hp]
        rfl
      · rw [lt_MAXVA_iff] at hbad
        exact hbad.imp_left fun hge => by omega
    · have hnext := vpn_next ha
      have hgo : Kernel.mapLoop (t.addr .root) perm last (n + 1 + 1) a pa s =
          Kernel.mapLoop (t1.addr .root) perm last (n + 1) (off a PGSIZE) (off pa PGSIZE) s1 := by
        rw [Kernel.mapLoop, hp, hstep.root]
        simp only [Option.bind_eq_bind, Option.bind_some]
        rw [if_neg (by decide), if_neg hne]
      have hlast' : last = off (off a PGSIZE) (PGSIZE * n) := by
        rw [hlast, off_off]
        congr 1
        ring
      have hrange : ∀ j, mapRange (lookup s1.mem t1) (vpn (off a PGSIZE)) j (off pa PGSIZE) perm =
          mapRange (lookup s.mem t) (vpn a) (j + 1) pa perm := fun j => by
        rw [hmap, hnext, mapRange_succ]
      rw [hgo]
      rcases ih hstep.kpt (off a PGSIZE) (off pa PGSIZE) (by unfold PGSIZE at *; omega) hlast' with
        ⟨hl, i, hi, hbad⟩ | ⟨hlt, s', t', hl, hstep', hmap'⟩ | ⟨j, hj, hlt, s', t', hl, hstep', hmap', hnil⟩
      · refine Or.inl ⟨hl, i + 1, by omega, ?_⟩
        rw [hnext] at hbad
        refine hbad.imp (fun hge => by omega) fun hV' => ?_
        rw [hmap, update_of_ne (by omega), Nat.add_assoc, Nat.add_comm 1 i] at hV'
        exact hV'
      · refine Or.inr (Or.inl ⟨by omega, s', t', hl, hstep.trans hstep', ?_⟩)
        rw [hmap', hrange]
      · refine Or.inr (Or.inr ⟨j + 1, by omega, by omega, s', t', hl, hstep.trans hstep', ?_, hnil⟩)
        rw [hmap', hrange]
    · refine Or.inr (Or.inr ⟨0, Nat.zero_le _, lt_MAXVA_iff.mp ha, s1, t1, ?_, hstep, ?_, hnil⟩)
      · rw [Kernel.mapLoop, hp]
        rfl
      · rw [hmap, mapRange_zero]

theorem Kpt.mappages (h : Kpt s t) (va pa : Addr) (size perm : BitVec 64) (hva : Aligned va)
    (hsz : size.toNat % PGSIZE = 0) (h0 : size ≠ 0) :
    (mappages (t.addr .root) va size pa perm s = none ∧
      ∃ i < size.toNat / PGSIZE, 2 ^ 26 ≤ vpn va + i ∨ lookup s.mem t (vpn va + i) &&& PTE_V ≠ 0) ∨
    (vpn va + size.toNat / PGSIZE ≤ 2 ^ 26 ∧ ∃ s' t', mappages (t.addr .root) va size pa perm s = some (0, s') ∧
      Step s t s' t' ∧ lookup s'.mem t' = mapRange (lookup s.mem t) (vpn va) (size.toNat / PGSIZE) pa perm) ∨
    ∃ j < size.toNat / PGSIZE, vpn va + j < 2 ^ 26 ∧ ∃ s' t', mappages (t.addr .root) va size pa perm s = some (-1, s') ∧
      Step s t s' t' ∧ lookup s'.mem t' = mapRange (lookup s.mem t) (vpn va) j pa perm ∧ t'.free = [] := by
  have hlt := size.isLt
  have hpos : size.toNat ≠ 0 := fun hz => h0 (BitVec.eq_of_toNat_eq hz)
  obtain ⟨n, hn⟩ : ∃ n, size.toNat / PGSIZE = n + 1 := ⟨size.toNat / PGSIZE - 1, by unfold PGSIZE at *; omega⟩
  have hsize : size.toNat = PGSIZE * (n + 1) := by
    unfold PGSIZE at *
    omega
  have hva' : va.toNat % PGSIZE = 0 := hva
  have hlast : va + size - BitVec.ofNat 64 PGSIZE = off va (PGSIZE * n) := by
    have hs : size = BitVec.ofNat 64 (PGSIZE * (n + 1)) := by
      rw [← hsize, BitVec.ofNat_toNat, BitVec.setWidth_eq]
    rw [hs, off, Nat.mul_succ, BitVec.ofNat_add]
    bv_omega
  rw [Kernel.mappages, if_neg (not_not.mpr hva'), if_neg (not_not.mpr hsz), if_neg h0, hn]
  rcases h.mapLoop perm n va pa (by unfold PGSIZE at *; omega) hlast with
    ⟨hl, i, hi, hbad⟩ | ⟨hmax, s', t', hl, hstep, hmap⟩ | ⟨j, hj, hmax, s', t', hl, hstep, hmap, hnil⟩
  · exact Or.inl ⟨hl, i, by omega, hbad⟩
  · exact Or.inr (Or.inl ⟨by omega, s', t', hl, hstep, hmap⟩)
  · exact Or.inr (Or.inr ⟨j, by omega, hmax, s', t', hl, hstep, hmap, hnil⟩)

/-! ## `kfree` -/

theorem kfree_isPage (h : kfree sym p s = some s') : IsPage sym p := by
  unfold kfree at h
  split at h
  · cases h
  · next hc =>
    rw [not_or, not_or, not_not] at hc
    exact ⟨hc.1, BitVec.not_lt.mp hc.2.1, BitVec.not_le.mp hc.2.2⟩

theorem IsPage.low (h : IsPage sym p) : p.toNat < 2 ^ 56 := by
  have hlt := BitVec.lt_def.mp h.lt_stop
  have hstop : PHYSTOP.toNat = 0x89000000 := by decide
  omega

theorem IsPage.ne_zero (h : IsPage sym p) (hsym : sym.Fits) : p ≠ 0 := by
  rintro rfl
  have hle := BitVec.le_def.mp h.ge_end
  have hpos := hsym.pos
  rw [show (0 : Addr).toNat = 0 from rfl] at hle
  omega

def Pt.give (t : Pt) (l : List Addr) : Pt := { t with free := l ++ t.free }

theorem Pt.give_cons (t : Pt) (p : Addr) (l : List Addr) : t.give (p :: l) = (t.give l).give [p] := rfl

theorem Pt.mem_give : q ∈ (t.give l).own ↔ q ∈ t.own ∨ q ∈ l := by
  rw [Pt.mem_own, Pt.mem_own]
  have hfree : q ∈ (t.give l).free ↔ q ∈ l ∨ q ∈ t.free := List.mem_append
  have hdom : (∃ a ∈ (t.give l).dom, (t.give l).addr a = q) ↔ ∃ a ∈ t.dom, t.addr a = q := Iff.rfl
  rw [hfree, hdom, or_assoc, or_comm (a := q ∈ l)]

theorem Pt.give_own (t : Pt) (l : List Addr) : (t.give l).own = t.own ∪ l.toFinset := by
  ext q
  rw [Pt.mem_give, Finset.mem_union, List.mem_toFinset]

theorem Kpt.kfree (h : Kpt s t) (hsym : sym.Fits) (hp : IsPage sym p) (hn : p ∉ t.own) :
    ∃ s', kfree sym p s = some s' ∧ Kpt s' (t.give [p]) ∧ lookup s'.mem t = lookup s.mem t ∧
      Frame (page p) s.mem s'.mem := by
  obtain ⟨s', hk, -, -, hf⟩ := kfree_spec hp s
  have hfree : p ∉ t.free := fun hm => hn (Pt.free_mem_own hm)
  have haddr : ∀ a ∈ t.dom, t.addr a ≠ p := fun a ha he => hn (he ▸ Pt.addr_mem_own ha)
  obtain ⟨hkpt, hmap⟩ := h.transfer hf (fun a ha => Pages.page_disjoint (h.aligned a ha) hp.aligned (haddr a ha))
    (kfree_pool hp (hp.ne_zero hsym) h.pool hfree hk) (List.forall_mem_cons.mpr ⟨hp.low, h.low⟩) fun a ha hm => by
      rcases List.mem_cons.mp hm with he | hm
      · exact haddr a ha he
      · exact h.fresh a ha hm
  exact ⟨s', hk, hkpt, funext hmap, hf⟩

/-! ## `uvmunmap` -/

/-- `uvmunmap` accepts the entry. -/
def IsLeaf (pte : BitVec 64) : Prop := pte &&& PTE_V ≠ 0 ∧ PTE_FLAGS pte ≠ PTE_V

instance (pte : BitVec 64) : Decidable (IsLeaf pte) := inferInstanceAs (Decidable (_ ∧ _))

theorem IsLeaf.ne_zero {pte : BitVec 64} (h : IsLeaf pte) : pte ≠ 0 := by
  rintro rfl
  exact h.1 rfl

theorem Kpt.unmapPage_eq (h : Kpt s t) (doFree : Bool) (a : Addr) :
    unmapPage sym (t.addr .root) doFree a s =
      if a < MAXVA ∧ IsLeaf (lookup s.mem t (vpn a)) then
        (if doFree then Kernel.kfree sym (PTE2PA (lookup s.mem t (vpn a))) s else some s).map
          fun s₁ => ⟨store s₁.mem (t.slot (vpn a)) (0 : BitVec 64), s₁.freelist⟩
      else none := by
  by_cases ha : a < MAXVA
  · rw [unmapPage, h.walk_slot ha]
    simp only [Option.bind_eq_bind, Option.bind_some]
    by_cases hm : leafOf (vpn a) ∈ t.dom
    · rw [if_pos hm, if_neg (h.slot_ne hm), load_slot hm]
      by_cases hV : lookup s.mem t (vpn a) &&& PTE_V = 0
      · rw [if_pos hV, if_neg fun hc => hc.2.1 hV]
      · by_cases hF : PTE_FLAGS (lookup s.mem t (vpn a)) = PTE_V
        · rw [if_neg hV, if_pos hF, if_neg fun hc => hc.2.2 hF]
        · have hcond : a < MAXVA ∧ IsLeaf (lookup s.mem t (vpn a)) := ⟨ha, hV, hF⟩
          rw [if_neg hV, if_neg hF, if_pos hcond]
          cases doFree with
          | false => rfl
          | true =>
            rw [if_pos rfl, if_pos rfl, Option.map_eq_bind]
            rfl
    · have hz : lookup s.mem t (vpn a) = 0 := if_neg hm
      rw [if_neg hm, if_pos rfl, if_neg fun hc => hc.2.ne_zero hz]
  · rw [unmapPage, walk_eq_none ha, if_neg fun hc => ha hc.1]
    rfl

/-- The map without `n` pages from `v`. -/
def clearRange (f : ℕ → BitVec 64) (v n : ℕ) (x : ℕ) : BitVec 64 := if v ≤ x ∧ x < v + n then 0 else f x

theorem clearRange_zero (f : ℕ → BitVec 64) (v : ℕ) : clearRange f v 0 = f := funext fun _ => if_neg (by omega)

theorem clearRange_of_not_mem {f : ℕ → BitVec 64} {v n x : ℕ} (h : x < v ∨ v + n ≤ x) : clearRange f v n x = f x :=
  if_neg (by omega)

theorem clearRange_of_mem {f : ℕ → BitVec 64} {v n x : ℕ} (h : v ≤ x) (h' : x < v + n) : clearRange f v n x = 0 :=
  if_pos ⟨h, h'⟩

theorem clearRange_succ (f : ℕ → BitVec 64) (v n : ℕ) :
    update (clearRange f v n) (v + n) 0 = clearRange f v (n + 1) := by
  funext x
  by_cases hx : x = v + n
  · rw [hx, update_self, clearRange_of_mem (by omega) (by omega)]
  · rw [update_of_ne hx]
    exact if_congr (by omega) rfl rfl

def leafPage (s : Kmem) (t : Pt) (v : ℕ) : Addr := PTE2PA (lookup s.mem t v)

/-- The pages of `n` entries from `v`, last one first. -/
def leafPages (s : Kmem) (t : Pt) (v n : ℕ) : List Addr := ((List.range n).map fun i => leafPage s t (v + i)).reverse

theorem leafPages_succ (s : Kmem) (t : Pt) (v n : ℕ) :
    leafPages s t v (n + 1) = leafPage s t (v + n) :: leafPages s t v n := by
  simp [leafPages, List.range_succ]

theorem mem_leafPages : p ∈ leafPages s t v n ↔ ∃ i < n, leafPage s t (v + i) = p := by
  simp [leafPages]

/-- The pages of the range are nobody's and all different. -/
structure Fresh (s : Kmem) (t : Pt) (v n : ℕ) : Prop where
  not_own : ∀ i < n, leafPage s t (v + i) ∉ t.own
  inj : ∀ i < n, ∀ j < n, leafPage s t (v + i) = leafPage s t (v + j) → i = j

theorem Fresh.mono {m : ℕ} (h : Fresh s t v n) (hm : m ≤ n) : Fresh s t v m :=
  ⟨fun i hi => h.not_own i (by omega), fun i hi j hj => h.inj i (by omega) j (by omega)⟩

def freed (s : Kmem) (t : Pt) (doFree : Bool) (v n : ℕ) : List Addr := if doFree then leafPages s t v n else []

/-- `n` pages from `v` have been unmapped. -/
structure Cleared (s : Kmem) (t : Pt) (doFree : Bool) (v n : ℕ) (s' : Kmem) : Prop where
  kpt : Kpt s' (t.give (freed s t doFree v n))
  map : lookup s'.mem t = clearRange (lookup s.mem t) v n
  frame : Frame (region (t.give (freed s t doFree v n)).own) s.mem s'.mem

theorem Cleared.zero (h : Kpt s t) (doFree : Bool) (v : ℕ) : Cleared s t doFree v 0 s := by
  have hnil : freed s t doFree v 0 = [] := by cases doFree <;> rfl
  refine ⟨?_, (clearRange_zero _ _).symm, Frame.refl _ _⟩
  rw [hnil]
  exact h

theorem vpn_off (h : va.toNat + PGSIZE * n < 2 ^ 64) : vpn (off va (PGSIZE * n)) = vpn va + n := by
  rw [vpn, off_toNat _ _ h, vpn]
  unfold PGSIZE
  omega

section Unmap
variable {doFree : Bool} (hc : Cleared s t doFree v n s₁) (ha : vpn a = v + n)
include hc ha

theorem Cleared.unmapPage_eq (sym : Symbols) :
    unmapPage sym (t.addr .root) doFree a s₁ =
      if a < MAXVA ∧ IsLeaf (lookup s.mem t (v + n)) then
        (if doFree then Kernel.kfree sym (leafPage s t (v + n)) s₁ else some s₁).map
          fun s₂ => ⟨store s₂.mem (t.slot (v + n)) (0 : BitVec 64), s₂.freelist⟩
      else none := by
  have heq : unmapPage sym (t.addr .root) doFree a s₁ = _ := hc.kpt.unmapPage_eq doFree a
  have hlook : lookup s₁.mem (t.give (freed s t doFree v n)) (vpn a) = lookup s.mem t (v + n) := by
    have hentry : lookup s₁.mem t (v + n) = lookup s.mem t (v + n) := by
      rw [hc.map, clearRange_of_not_mem (by omega)]
    rw [ha, ← hentry]
    rfl
  have hslot : (t.give (freed s t doFree v n)).slot (vpn a) = t.slot (v + n) := by
    rw [ha]
    rfl
  rw [heq, hlook, hslot]
  rfl

theorem Cleared.needs (h : unmapPage sym (t.addr .root) doFree a s₁ = some s') :
    v + n < 2 ^ 26 ∧ IsLeaf (lookup s.mem t (v + n)) ∧ (doFree = true → IsPage sym (leafPage s t (v + n))) := by
  rw [hc.unmapPage_eq ha] at h
  split at h
  · next hcond =>
    refine ⟨by rw [← ha]; exact lt_MAXVA_iff.mp hcond.1, hcond.2, fun hd => ?_⟩
    rw [if_pos hd] at h
    obtain ⟨s₂, hk, _⟩ := Option.map_eq_some_iff.mp h
    exact kfree_isPage hk
  · cases h

theorem Cleared.next (hmax : v + n < 2 ^ 26) (hleaf : IsLeaf (lookup s.mem t (v + n)))
    (hpage : doFree = true → IsPage sym (leafPage s t (v + n))) (hfresh : doFree = true → Fresh s t v (n + 1))
    (hsym : sym.Fits) : ∃ s', unmapPage sym (t.addr .root) doFree a s₁ = some s' ∧ Cleared s t doFree v (n + 1) s' := by
  have hm : leafOf (v + n) ∈ t.dom := leafOf_mem hleaf.ne_zero
  rw [hc.unmapPage_eq ha, if_pos ⟨lt_MAXVA_iff.mpr (by rw [ha]; exact hmax), hleaf⟩]
  -- the entry is cleared on a table that already has the page on its free list
  have hclear : ∀ {s₂ : Kmem}, Kpt s₂ (t.give (freed s t doFree v (n + 1))) → lookup s₂.mem t = lookup s₁.mem t →
      Frame (region (t.give (freed s t doFree v (n + 1))).own) s.mem s₂.mem →
      Cleared s t doFree v (n + 1) ⟨store s₂.mem (t.slot (v + n)) (0 : BitVec 64), s₂.freelist⟩ := by
    intro s₂ hk hmap hf
    have hm' : leafOf (v + n) ∈ (t.give (freed s t doFree v (n + 1))).dom := hm
    refine ⟨hk.store_leaf hm' 0, ?_, hf.trans (hk.store_step hm' 0).frame⟩
    funext w
    have hstore : lookup (store s₂.mem (t.slot (v + n)) (0 : BitVec 64)) t w =
        update (lookup s₂.mem t) (v + n) 0 w := hk.store_map hm' 0 w
    rw [hstore, hmap, hc.map, clearRange_succ]
  cases doFree with
  | false => exact ⟨_, rfl, hclear hc.kpt rfl hc.frame⟩
  | true =>
    have hown := hfresh rfl
    have hlist : freed s t true v (n + 1) = leafPage s t (v + n) :: freed s t true v n := leafPages_succ s t v n
    have hnot : leafPage s t (v + n) ∉ (t.give (freed s t true v n)).own := by
      rw [Pt.mem_give]
      rintro (hin | hin)
      · exact hown.not_own n (Nat.lt_succ_self n) hin
      · obtain ⟨i, hi, he⟩ := mem_leafPages.mp hin
        have := hown.inj i (by omega) n (Nat.lt_succ_self n) he
        omega
    obtain ⟨s₂, hk, hkpt, hmap, hf⟩ := hc.kpt.kfree hsym (hpage rfl) hnot
    rw [if_pos rfl, hk]
    refine ⟨_, rfl, hclear ?_ hmap ?_⟩
    · rw [hlist, Pt.give_cons]
      exact hkpt
    · rw [hlist, Pt.give_cons, Pt.give_own]
      refine (hc.frame.mono (region_mono Finset.subset_union_left)).trans (hf.mono ?_)
      exact page_subset_region (Finset.mem_union_right _ (by simp))

end Unmap

/-- The number of pages from `va` to the end that `uvmunmap` computes. -/
def pageCount (va : Addr) (npages : BitVec 64) : ℕ :=
  ((va + npages * BitVec.ofNat 64 PGSIZE).toNat - va.toNat) / PGSIZE

theorem pageCount_le (va : Addr) (npages : BitVec 64) : va.toNat + PGSIZE * pageCount va npages < 2 ^ 64 ∨
    pageCount va npages = 0 := by
  have h := (va + npages * BitVec.ofNat 64 PGSIZE).isLt
  unfold pageCount PGSIZE at *
  omega

theorem pageCount_eq {k : ℕ} (hk : vpn va + k ≤ 2 ^ 26) (hva : Aligned va) : pageCount va (BitVec.ofNat 64 k) = k := by
  have hal : va.toNat % 4096 = 0 := hva
  have hn : (BitVec.ofNat 64 k * BitVec.ofNat 64 PGSIZE).toNat = k * 4096 := by
    unfold vpn at hk
    rw [BitVec.toNat_mul, BitVec.toNat_ofNat, BitVec.toNat_ofNat, Nat.mod_eq_of_lt (by omega : k < 2 ^ 64)]
    unfold PGSIZE
    omega
  have hsum : (va + BitVec.ofNat 64 k * BitVec.ofNat 64 PGSIZE).toNat = va.toNat + k * 4096 := by
    unfold vpn at hk
    rw [BitVec.toNat_add, hn, Nat.mod_eq_of_lt (by omega)]
  unfold pageCount
  rw [hsum]
  unfold PGSIZE
  omega

theorem Kpt.uvmunmap_done (h : Kpt s t) (hsym : sym.Fits) {doFree : Bool} {npages : BitVec 64}
    (hfresh : doFree = true → ∀ k ≤ pageCount va npages, vpn va + k ≤ 2 ^ 26 → Fresh s t (vpn va) k)
    (hrun : uvmunmap sym (t.addr .root) va npages doFree s = some s') :
    Aligned va ∧ (∀ i < pageCount va npages, vpn va + i < 2 ^ 26 ∧ IsLeaf (lookup s.mem t (vpn va + i)) ∧
        (doFree = true → IsPage sym (leafPage s t (vpn va + i)))) ∧
      Cleared s t doFree (vpn va) (pageCount va npages) s' := by
  unfold uvmunmap at hrun
  split at hrun
  · cases hrun
  · next hal =>
    have hbound := pageCount_le va npages
    have hinv := forLoopM_inv (fun i => unmapPage sym (t.addr .root) doFree (off va (PGSIZE * i)))
      (fun i s₁ => (∀ j < i, vpn va + j < 2 ^ 26 ∧ IsLeaf (lookup s.mem t (vpn va + j)) ∧
          (doFree = true → IsPage sym (leafPage s t (vpn va + j)))) ∧
        Cleared s t doFree (vpn va) i s₁) 0 (pageCount va npages) hrun
      ⟨fun _ h => absurd h (Nat.not_lt_zero _), Cleared.zero h doFree _⟩ (by
        rintro i s₁ s₂ _ hi ⟨hall, hc⟩ hstep
        rw [Nat.zero_add] at hi
        have hvpn : vpn (off va (PGSIZE * i)) = vpn va + i := vpn_off (by unfold PGSIZE at *; omega)
        obtain ⟨hmax, hleaf, hpage⟩ := hc.needs hvpn hstep
        obtain ⟨s₂', hstep', hc'⟩ := hc.next hvpn hmax hleaf hpage
          (fun hd => hfresh hd (i + 1) hi (by omega)) hsym
        rw [hstep] at hstep'
        cases hstep'
        refine ⟨fun j hj => ?_, hc'⟩
        rcases Nat.lt_succ_iff_lt_or_eq.mp hj with hj | rfl
        · exact hall j hj
        · exact ⟨hmax, hleaf, hpage⟩)
    rw [Nat.zero_add] at hinv
    exact ⟨not_not.mp hal, hinv⟩

theorem Kpt.uvmunmap (h : Kpt s t) (hsym : sym.Fits) {doFree : Bool} {k : ℕ} (hva : Aligned va) (hmax : vpn va + k ≤ 2 ^ 26)
    (hleaf : ∀ i < k, IsLeaf (lookup s.mem t (vpn va + i)))
    (hpage : doFree = true → ∀ i < k, IsPage sym (leafPage s t (vpn va + i)))
    (hfresh : doFree = true → Fresh s t (vpn va) k) :
    ∃ s', uvmunmap sym (t.addr .root) va (BitVec.ofNat 64 k) doFree s = some s' ∧ Cleared s t doFree (vpn va) k s' := by
  have hal : va.toNat % PGSIZE = 0 := hva
  have hcount := pageCount_eq hmax hva
  unfold pageCount at hcount
  rw [Kernel.uvmunmap, if_neg (not_not.mpr hal)]
  simp only
  rw [hcount]
  have hloop := forLoopM_induct (fun i => unmapPage sym (t.addr .root) doFree (off va (PGSIZE * i)))
    (fun i s₁ => Cleared s t doFree (vpn va) i s₁) 0 k s (Cleared.zero h doFree _) (by
      intro i s₁ _ hi hc
      rw [Nat.zero_add] at hi
      have hvpn : vpn (off va (PGSIZE * i)) = vpn va + i := by
        refine vpn_off ?_
        unfold vpn PGSIZE at *
        omega
      exact hc.next hvpn (by omega) (hleaf i hi) (fun hd => hpage hd i hi) (fun hd => (hfresh hd).mono (by omega)) hsym)
  rw [Nat.zero_add] at hloop
  exact hloop

theorem Kpt.uvmclear_done (h : Kpt s t) (hrun : uvmclear (t.addr .root) va s = some s') :
    va < MAXVA ∧ Step s t s' t ∧
      lookup s'.mem t = update (lookup s.mem t) (vpn va) (lookup s.mem t (vpn va) &&& ~~~PTE_U) := by
  by_cases hva : va < MAXVA
  · rw [uvmclear, h.walk_slot hva] at hrun
    simp only [Option.bind_eq_bind, Option.bind_some] at hrun
    by_cases hm : leafOf (vpn va) ∈ t.dom
    · rw [if_pos hm, if_neg (h.slot_ne hm), load_slot hm] at hrun
      cases hrun
      exact ⟨hva, h.store_step hm _, funext fun w => h.store_map hm _ w⟩
    · rw [if_neg hm, if_pos rfl] at hrun
      cases hrun
  · rw [uvmclear, walk_eq_none hva] at hrun
    cases hrun

end Xv6Boot.Kernel
