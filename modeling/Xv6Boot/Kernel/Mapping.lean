import Xv6Boot.Kernel.PageTable

/-! # `mappages` against the map

`Space S k root f s t` says that the table at `root` realises the map `f` from virtual page numbers to leaf
entries, and that the free list holds enough pages for every table of `S` that is still missing and for `k`
more. Under it `walk` cannot run out of memory, and mapping a range replaces the entries of that range in
`f` and no others.
-/

namespace Xv6Boot.Kernel
open Function ByteMemory Loop StringC Pages

structure Space (S : Finset Node) (k : ℕ) (root : Addr) (f : ℕ → BitVec 64) (s : Kmem) (t : Pt) : Prop where
  kpt : Kpt s t
  root_addr : t.addr .root = root
  bound : t.dom ⊆ S
  room : S.card + k ≤ t.free.length + t.dom.card
  map : ∀ v, lookup s.mem t v = f v

def vpn (va : Addr) : ℕ := va.toNat / 4096

theorem vpn_TRAMPOLINE : vpn TRAMPOLINE = 2 ^ 26 - 1 := by decide

/-! ## Indices of an address below `MAXVA` -/

theorem MAXVA_toNat : MAXVA.toNat = 2 ^ 38 := rfl

variable {va pa : Addr} {s1 : Kmem} {n : ℕ}

theorem midOf_vpn (h : va < MAXVA) : midOf (vpn va) = Node.root.child (PX 2 va) := by
  have he : va.toNat / 4096 / 2 ^ 18 = va.toNat / 2 ^ (12 + 9 * 2) % 512 := by
    rw [BitVec.lt_def, MAXVA_toNat] at h
    omega
  rw [PX_eq, midOf, vpn, Node.child, he]

theorem leafOf_vpn (va : Addr) : leafOf (vpn va) = (midOf (vpn va)).child (PX 1 va) := by
  have he : va.toNat / 4096 / 2 ^ 9 % 512 = va.toNat / 2 ^ (12 + 9 * 1) % 512 := by omega
  rw [leafOf_eq, PX_eq, ← he, vpn]

theorem midOf_level (v : ℕ) : (midOf v).level ≠ 0 := Nat.one_ne_zero

theorem vpn_mod (va : Addr) : PX 0 va = vpn va % 512 := PX_eq 0 va

theorem Kpt.slot_ne_zero {s : Kmem} {t : Pt} (h : Kpt s t) {a : Node} (ha : a ∈ t.dom) {i : ℕ}
    (hi : i < 512) : off (t.addr a) (8 * i) ≠ 0 := by
  have hal := h.aligned a ha
  have hle := hal.toNat_le
  unfold Aligned pageBytes at *
  intro h0
  have hz := congrArg BitVec.toNat h0
  rw [off_toNat _ _ (by omega)] at hz
  apply h.nonzero a ha
  apply BitVec.eq_of_toNat_eq
  rw [show (0 : Addr).toNat = 0 from rfl] at hz ⊢
  omega

/-! ## `walk` -/

section Walk
variable {S : Finset Node} {k : ℕ} {root : Addr} {f : ℕ → BitVec 64} {s : Kmem} {t : Pt}

theorem Space.free_cons (h : Space S k root f s t) {c : Node} (hS : c ∈ S) (hc : c ∉ t.dom) :
    ∃ p l, t.free = p :: l := by
  have hlt : t.dom.card < S.card :=
    Finset.card_lt_card (Finset.ssubset_iff_subset_ne.mpr ⟨h.bound, fun he => hc (he ▸ hS)⟩)
  have hroom := h.room
  cases hfree : t.free with
  | nil =>
    rw [hfree, List.length_nil] at hroom
    omega
  | cons p l => exact ⟨p, l, rfl⟩

theorem Space.exists_page (h : Space S (k + 1) root f s t) :
    ∃ p l, t.free = p :: l ∧ (kalloc s).1 = p ∧ p ≠ 0 ∧ S.card + k ≤ l.length + t.dom.card := by
  have hroom := h.room
  have hcard := Finset.card_le_card h.bound
  cases hfree : t.free with
  | nil =>
    rw [hfree, List.length_nil] at hroom
    omega
  | cons p l =>
    have hpool := h.kpt.pool
    rw [hfree] at hpool hroom
    obtain ⟨hk, h0, -, -⟩ := kalloc_cons hpool
    rw [List.length_cons] at hroom
    exact ⟨p, l, rfl, hk, h0, by omega⟩

theorem Space.walkLevel (h : Space S k root f s t) {a : Node} (ha : a ∈ t.dom) (hlev : a.level ≠ 0) {level : ℕ}
    (hS : a.child (PX level va) ∈ S) :
    ∃ s' t', walkLevel true va level (t.addr a) s = (some (t'.addr (a.child (PX level va))), s') ∧
      Space S k root f s' t' ∧ a.child (PX level va) ∈ t'.dom ∧ t'.free <:+ t.free := by
  by_cases hc : a.child (PX level va) ∈ t.dom
  · exact ⟨s, t, walkLevel_found h.kpt ha hlev true hc, h, hc, List.suffix_refl _⟩
  · obtain ⟨p, l, hfree⟩ := h.free_cons hS hc
    obtain ⟨s', hw, hkpt, hmap, -⟩ := walkLevel_alloc h.kpt hfree ha hlev hc
    refine ⟨s', t.extend (a.child (PX level va)) p l, ?_, ⟨hkpt, ?_, ?_, ?_, ?_⟩,
      Pt.mem_extend.mpr (.inl rfl), ?_⟩
    · rw [hw, Pt.extend_addr_self]
    · rw [Pt.extend_addr_ne t (Node.child_ne_root _).symm]
      exact h.root_addr
    · exact Finset.insert_subset hS h.bound
    · have hroom := h.room
      have hcard : (t.extend (a.child (PX level va)) p l).dom.card = t.dom.card + 1 :=
        Finset.card_insert_of_notMem hc
      have hlen : (t.extend (a.child (PX level va)) p l).free.length = l.length := rfl
      rw [hfree, List.length_cons] at hroom
      omega
    · intro v
      rw [hmap, h.map]
    · rw [hfree]
      exact List.suffix_cons p l

theorem walkLoop_some {alloc : Bool} {level : ℕ} {p q : Addr} (h : walkLevel alloc va (level + 1) p s = (some q, s1)) :
    walkLoop alloc va (level + 1) p s = walkLoop alloc va level q s1 := by
  rw [walkLoop, h]
  rfl

theorem walkLoop_none {alloc : Bool} {level : ℕ} {p : Addr} (h : walkLevel alloc va (level + 1) p s = (none, s1)) :
    walkLoop alloc va (level + 1) p s = (none, s1) := by
  rw [walkLoop, h]
  rfl

theorem walk_eq (hva : va < MAXVA) {alloc : Bool} {p : Option Addr} (h : walkLoop alloc va 2 root s = (p, s1)) :
    walk root va alloc s = some (p.elim 0 fun p => off p (8 * (vpn va % 512)), s1) := by
  rw [walk, if_neg (BitVec.not_le.mpr hva), h, ← vpn_mod]

theorem Space.walk (h : Space S k root f s t) (hva : va < MAXVA) (hm : midOf (vpn va) ∈ S) (hl : leafOf (vpn va) ∈ S) :
    ∃ s' t', walk root va true s = some (off (t'.addr (leafOf (vpn va))) (8 * (vpn va % 512)), s') ∧
      Space S k root f s' t' ∧ leafOf (vpn va) ∈ t'.dom ∧ t'.free <:+ t.free := by
  rw [midOf_vpn hva] at hm
  obtain ⟨s1, t1, hw1, h1, hmem1, hs1⟩ := h.walkLevel h.kpt.table.root_mem (by decide) hm
  rw [← midOf_vpn hva] at hw1 hmem1
  rw [leafOf_vpn] at hl
  obtain ⟨s2, t2, hw2, h2, hmem2, hs2⟩ := h1.walkLevel hmem1 (midOf_level _) hl
  rw [← leafOf_vpn] at hw2 hmem2
  rw [h.root_addr] at hw1
  have hloop : walkLoop true va 2 root s = (some (t2.addr (leafOf (vpn va))), s2) :=
    (walkLoop_some hw1).trans (walkLoop_some hw2)
  exact ⟨s2, t2, walk_eq hva hloop, h2, hmem2, hs2.trans hs1⟩

theorem Kpt.walkLoop_false (h : Kpt s t) (hva : va < MAXVA) :
    walkLoop false va 2 (t.addr .root) s =
      (if leafOf (vpn va) ∈ t.dom then some (t.addr (leafOf (vpn va))) else none, s) := by
  have hroot := h.table.root_mem
  by_cases hm : midOf (vpn va) ∈ t.dom
  · have hw2 := midOf_vpn hva ▸ walkLevel_found h hroot (by decide) false (midOf_vpn hva ▸ hm)
    by_cases hl : leafOf (vpn va) ∈ t.dom
    · have hw1 := leafOf_vpn va ▸ walkLevel_found h hm (midOf_level _) false (leafOf_vpn va ▸ hl)
      rw [if_pos hl]
      exact (walkLoop_some hw2).trans (walkLoop_some hw1)
    · have hw1 := walkLevel_missing h hm (midOf_level _) (leafOf_vpn va ▸ hl)
      rw [if_neg hl]
      exact (walkLoop_some hw2).trans (walkLoop_none hw1)
  · have hl : leafOf (vpn va) ∉ t.dom := fun hl => hm (h.table.mid_mem _ _ hl)
    have hw2 := walkLevel_missing h hroot (by decide) (midOf_vpn hva ▸ hm)
    rw [if_neg hl]
    exact walkLoop_none hw2

theorem Kpt.walk_lookup (h : Kpt s t) (hva : va < MAXVA) :
    ∃ pte, Kernel.walk (t.addr .root) va false s = some (pte, s) ∧
      lookup s.mem t (vpn va) = if pte = 0 then 0 else load 64 s.mem pte := by
  refine ⟨_, walk_eq hva (h.walkLoop_false hva), ?_⟩
  rw [lookup]
  by_cases hl : leafOf (vpn va) ∈ t.dom
  · have hne := h.slot_ne_zero hl (Nat.mod_lt (vpn va) (by norm_num))
    rw [if_pos hl, if_pos hl, Option.elim_some, if_neg hne, pteAt]
  · rw [if_neg hl, if_neg hl, Option.elim_none, if_pos rfl]

theorem Space.walk_lookup (h : Space S k root f s t) (hva : va < MAXVA) :
    ∃ pte, Kernel.walk root va false s = some (pte, s) ∧
      f (vpn va) = if pte = 0 then 0 else load 64 s.mem pte := by
  rw [← h.map, ← h.root_addr]
  exact h.kpt.walk_lookup hva

end Walk

/-! ## Writing a leaf entry -/

section Leaf
variable {s : Kmem} {t : Pt} (h : Kpt s t) {v : ℕ} (hv : leafOf v ∈ t.dom) (x : BitVec 64)
include h hv

theorem pteAt_store_leaf {b : Node} (hb : b ∈ t.dom) {j : ℕ} (hj : j < 512) :
    pteAt (store s.mem (off (t.addr (leafOf v)) (8 * (v % 512))) x) (t.addr b) j =
      if b = leafOf v ∧ j = v % 512 then x else pteAt s.mem (t.addr b) j := by
  rw [pteAt_store (h.aligned _ hv) (h.aligned b hb) (Nat.mod_lt _ (by norm_num)) hj]
  refine if_congr ⟨fun hx => ⟨h.inj b hb _ hv hx.1, hx.2⟩, fun hx => ⟨congrArg t.addr hx.1, hx.2⟩⟩ rfl rfl

theorem Kpt.store_leaf :
    Kpt ⟨store s.mem (off (t.addr (leafOf v)) (8 * (v % 512))) x, s.freelist⟩ t where
  table := by
    refine ⟨h.table.root_mem, h.table.mid_mem, fun a ha hlev i hi => ?_⟩
    have hne : ¬ (a = leafOf v ∧ i = v % 512) := by
      rintro ⟨rfl, -⟩
      exact hlev rfl
    rw [pteAt_store_leaf h hv x ha hi, if_neg hne]
    exact h.table.link a ha hlev i hi
  pool := h.pool.frame_page (h.aligned _ hv) (h.fresh _ hv)
    ((store64_frame _ _ _).mono (slot_subset _ (Nat.mod_lt _ (by norm_num))))
  low := h.low
  addr_low := h.addr_low
  aligned := h.aligned
  nonzero := h.nonzero
  fresh := h.fresh
  inj := h.inj

theorem lookup_store_leaf (w : ℕ) :
    lookup (store s.mem (off (t.addr (leafOf v)) (8 * (v % 512))) x) t w =
      update (lookup s.mem t) v x w := by
  by_cases hw : w = v
  · subst hw
    rw [update_self, lookup, if_pos hv, pteAt_store_leaf h hv x hv (Nat.mod_lt _ (by norm_num)),
      if_pos ⟨rfl, rfl⟩]
  · rw [update_of_ne hw]
    unfold lookup
    by_cases hm : leafOf w ∈ t.dom
    · rw [if_pos hm, if_pos hm, pteAt_store_leaf h hv x hm (Nat.mod_lt _ (by norm_num)),
        if_neg fun hx => hw (page_of_leaf hx.1 hx.2)]
    · rw [if_neg hm, if_neg hm]

end Leaf

/-! ## `mappages` -/

/-- The map with `n` pages from `v` sent to the pages from `pa`. -/
def mapRange (f : ℕ → BitVec 64) (v n : ℕ) (pa : Addr) (perm : BitVec 64) (x : ℕ) : BitVec 64 :=
  if v ≤ x ∧ x < v + n then PA2PTE (off pa (PGSIZE * (x - v))) ||| perm ||| PTE_V else f x

variable {f : ℕ → BitVec 64}

theorem mapRange_of_mem {v : ℕ} {perm : BitVec 64} {x : ℕ} (h : v ≤ x) (h' : x < v + n) :
    mapRange f v n pa perm x = PA2PTE (off pa (PGSIZE * (x - v))) ||| perm ||| PTE_V :=
  if_pos ⟨h, h'⟩

theorem mapRange_of_not_mem {v : ℕ} {perm : BitVec 64} {x : ℕ} (h : x < v ∨ v + n ≤ x) :
    mapRange f v n pa perm x = f x :=
  if_neg (by omega)

theorem mapRange_succ (f : ℕ → BitVec 64) (v n : ℕ) (pa : Addr) (perm : BitVec 64) :
    mapRange (update f v (PA2PTE pa ||| perm ||| PTE_V)) (v + 1) n (off pa PGSIZE) perm =
      mapRange f v (n + 1) pa perm := by
  funext x
  by_cases hx : x = v
  · subst hx
    rw [mapRange_of_not_mem (.inl (by omega)), mapRange_of_mem le_rfl (by omega), update_self,
      Nat.sub_self, Nat.mul_zero, off_zero]
  · by_cases hr : v + 1 ≤ x ∧ x < v + 1 + n
    · have he : PGSIZE + PGSIZE * (x - (v + 1)) = PGSIZE * (x - v) := by
        rw [show x - v = x - (v + 1) + 1 by omega]
        ring
      rw [mapRange_of_mem hr.1 hr.2, mapRange_of_mem (by omega) (by omega), off_off, he]
    · rw [mapRange_of_not_mem (by omega), mapRange_of_not_mem (by omega), update_of_ne hx]

/-- The tables for `n` pages from `v` are among those accounted for. -/
def Covers (S : Finset Node) (v n : ℕ) : Prop := ∀ x, v ≤ x → x < v + n → midOf x ∈ S ∧ leafOf x ∈ S

def Unmapped (f : ℕ → BitVec 64) (v n : ℕ) : Prop := ∀ x, v ≤ x → x < v + n → f x = 0

theorem Unmapped.mapRange {v w k : ℕ} {perm : BitVec 64} (h : Unmapped f w k)
    (hd : w + k ≤ v ∨ v + n ≤ w) : Unmapped (mapRange f v n pa perm) w k := by
  intro x hx hx'
  rw [mapRange_of_not_mem (by omega)]
  exact h x hx hx'

variable {S : Finset Node} {k : ℕ} {root : Addr} {f : ℕ → BitVec 64} {s : Kmem} {t : Pt}

theorem Space.mapPage (h : Space S k root f s t) (perm : BitVec 64) (pa : Addr) {a : Addr} (ha : a < MAXVA)
    (hS : Covers S (vpn a) 1)
    (h0 : f (vpn a) = 0) :
    ∃ s' t', mapPage root perm a pa s = some (true, s') ∧
      Space S k root (update f (vpn a) (PA2PTE pa ||| perm ||| PTE_V)) s' t' ∧
      t'.free <:+ t.free := by
  obtain ⟨hm, hl⟩ := hS _ le_rfl (Nat.lt_succ_self _)
  obtain ⟨s1, t1, hw, h1, hmem, hsuf⟩ := h.walk ha hm hl
  have hpte : load 64 s1.mem (off (t1.addr (leafOf (vpn a))) (8 * (vpn a % 512))) = 0 := by
    rw [← h0, ← h1.map, lookup, if_pos hmem, pteAt]
  refine ⟨_, t1, ?_, ⟨h1.kpt.store_leaf hmem (PA2PTE pa ||| perm ||| PTE_V), h1.root_addr, h1.bound, h1.room, ?_⟩, hsuf⟩
  · rw [Kernel.mapPage, hw]
    simp only [Option.bind_eq_bind, Option.bind_some]
    rw [if_neg (h1.kpt.slot_ne_zero hmem (Nat.mod_lt _ (by norm_num))), hpte, if_neg zero_invalid]
  · intro w
    rw [lookup_store_leaf h1.kpt hmem]
    simp only [update_apply, h1.map]

theorem Space.mapLoop (h : Space S k root f s t) (perm : BitVec 64) (n : ℕ) (pa : Addr) {a last : Addr} (hal : Aligned a)
    (hlast : last.toNat = a.toNat + PGSIZE * n) (hmax : last < MAXVA) (hS : Covers S (vpn a) (n + 1))
    (h0 : Unmapped f (vpn a) (n + 1)) :
    ∃ s' t', mapLoop root perm last (n + 1) a pa s = some (0, s') ∧
      Space S k root (mapRange f (vpn a) (n + 1) pa perm) s' t' ∧ t'.free <:+ t.free := by
  rw [BitVec.lt_def, MAXVA_toNat] at hmax
  induction n generalizing f s t a pa with
  | zero =>
    have ha : a < MAXVA := by
      rw [BitVec.lt_def, MAXVA_toNat]
      omega
    obtain ⟨s1, t1, hp, h1, hsuf⟩ := h.mapPage perm pa ha hS (h0 _ le_rfl (by omega))
    have he : a = last := by
      apply BitVec.eq_of_toNat_eq
      omega
    refine ⟨s1, t1, ?_, ?_, hsuf⟩
    · rw [Kernel.mapLoop, hp]
      simp [he]
    · rw [← mapRange_succ]
      have hid : mapRange (update f (vpn a) (PA2PTE pa ||| perm ||| PTE_V)) (vpn a + 1) 0
          (off pa PGSIZE) perm = update f (vpn a) (PA2PTE pa ||| perm ||| PTE_V) := by
        funext x
        exact mapRange_of_not_mem (by omega)
      rw [hid]
      exact h1
  | succ n ih =>
    unfold PGSIZE at hlast
    have ha : a < MAXVA := by
      rw [BitVec.lt_def, MAXVA_toNat]
      omega
    have hoff : (off a PGSIZE).toNat = a.toNat + 4096 := off_toNat _ _ (by unfold PGSIZE; omega)
    have hvpn : vpn (off a PGSIZE) = vpn a + 1 := by
      unfold vpn
      omega
    have hal' : Aligned (off a PGSIZE) := by
      unfold Aligned pageBytes at *
      omega
    have hlast' : last.toNat = (off a PGSIZE).toNat + PGSIZE * n := by
      unfold PGSIZE at *
      omega
    have hS1 : Covers S (vpn a) 1 := fun x hx hx' => hS x hx (by omega)
    have hS' : Covers S (vpn (off a PGSIZE)) (n + 1) := fun x hx hx' => hS x (by omega) (by omega)
    obtain ⟨s1, t1, hp, h1, hsuf⟩ := h.mapPage perm pa ha hS1 (h0 _ le_rfl (by omega))
    have h0' : Unmapped (update f (vpn a) (PA2PTE pa ||| perm ||| PTE_V)) (vpn (off a PGSIZE))
        (n + 1) := by
      intro x hx hx'
      rw [update_of_ne (by omega)]
      exact h0 x (by omega) (by omega)
    obtain ⟨s2, t2, hl, h2, hsuf2⟩ := ih h1 (off pa PGSIZE) hal' hlast' hS' h0'
    have hne : a ≠ last := by
      rintro rfl
      omega
    refine ⟨s2, t2, ?_, ?_, hsuf2.trans hsuf⟩
    · rw [Kernel.mapLoop, hp]
      simp only [Option.bind_eq_bind, Option.bind_some]
      rw [if_neg (by decide), if_neg hne]
      exact hl
    · rw [hvpn, mapRange_succ] at h2
      exact h2

theorem Space.kvmmap (h : Space S k root f s t) (va pa : Addr) (sz perm : BitVec 64) (hal : Aligned va)
    (hsz : sz.toNat = PGSIZE * n) (hpos : 0 < n) (hmax : va.toNat + PGSIZE * n ≤ 2 ^ 38) (hS : Covers S (vpn va) n)
    (h0 : Unmapped f (vpn va) n) :
    ∃ s' t', kvmmap root va pa sz perm s = some s' ∧ Space S k root (mapRange f (vpn va) n pa perm) s' t' ∧
      t'.free <:+ t.free := by
  have hal' : va.toNat % PGSIZE = 0 := hal
  obtain ⟨n, rfl⟩ := Nat.exists_eq_succ_of_ne_zero hpos.ne'
  have hlast : (va + sz - BitVec.ofNat 64 PGSIZE).toNat = va.toNat + PGSIZE * n := by
    unfold PGSIZE at *
    bv_omega
  have hlt : va + sz - BitVec.ofNat 64 PGSIZE < MAXVA := by
    rw [BitVec.lt_def, MAXVA_toNat, hlast]
    unfold PGSIZE at *
    omega
  obtain ⟨s', t', hl, h', hsuf⟩ := h.mapLoop perm n pa hal hlast hlt hS h0
  have hmod : sz.toNat % PGSIZE = 0 := by
    rw [hsz]
    exact Nat.mul_mod_right _ _
  have hdiv : sz.toNat / PGSIZE = n + 1 := by
    rw [hsz]
    exact Nat.mul_div_cancel_left _ (by decide)
  have hsz0 : sz ≠ 0 := by
    rintro rfl
    rw [show (0 : BitVec 64).toNat = 0 from rfl] at hsz
    unfold PGSIZE at hsz
    omega
  have hmp : mappages root va sz pa perm s = some (0, s') := by
    rw [mappages, if_neg (not_not.mpr hal'), if_neg (not_not.mpr hmod), if_neg hsz0, hdiv, hl]
  refine ⟨s', t', ?_, h', hsuf⟩
  rw [Kernel.kvmmap, hmp]
  rfl

end Xv6Boot.Kernel
