import Xv6Boot.Kernel.UserTable

/-! # Page tables are partial maps

A table that `uvmcreate` has made and that was changed only by `mappages`, `uvmunmap` and `uvmclear`, while others
allocate, free and write pages of their own, is a map from pages to entries: `mappages` adds its range to it or, out of
memory, the first pages of the range, and `uvmunmap` removes its range. Pages that `uvmunmap` frees must be nobody's: a
page of the table itself can be mapped, and freeing it destroys the table.
-/

namespace Xv6Boot.Kernel
open ByteMemory Loop StringC Pages

variable {sym : Symbols} {s s' : Kmem} {t t' : Pt} {root p va pa : Addr} {l : List Addr} {v n : ℕ} {perm : BitVec 64}
  {m : Mem} {npages size : BitVec 64}

/-! ## What the memory says -/

/-- The entry that `walk` finds for an address, 0 where there is none. -/
def entry (root va : Addr) (s : Kmem) : BitVec 64 :=
  match walk root va false s with
  | some (pte, s) => if pte = 0 then 0 else load 64 s.mem pte
  | none => 0

theorem Kpt.entry_eq (h : Kpt s t) (hva : va < MAXVA) : entry (t.addr .root) va s = lookup s.mem t (vpn va) := by
  obtain ⟨pte, hw, hl⟩ := h.walk_lookup hva
  rw [entry, hw, hl]

def IsTablePage (m : Mem) (root p : Addr) : Prop :=
  p = root ∨ ∃ i < 512, pteAt m root i &&& PTE_V ≠ 0 ∧
    (p = PTE2PA (pteAt m root i) ∨ ∃ j < 512, pteAt m (PTE2PA (pteAt m root i)) j &&& PTE_V ≠ 0 ∧
      p = PTE2PA (pteAt m (PTE2PA (pteAt m root i)) j))

theorem Kpt.link_iff (h : Kpt s t) {b : Node} (hb : b ∈ t.dom) (hlev : b.level ≠ 0) {i : ℕ} (hi : i < 512) :
    (pteAt s.mem (t.addr b) i &&& PTE_V ≠ 0 ↔ b.child i ∈ t.dom) ∧
      (b.child i ∈ t.dom → PTE2PA (pteAt s.mem (t.addr b) i) = t.addr (b.child i)) := by
  have hl := h.table.link b hb hlev i hi
  rw [hl]
  by_cases hc : b.child i ∈ t.dom
  · rw [if_pos hc]
    exact ⟨⟨fun _ => hc, fun _ => or_PTE_V_valid _⟩, fun _ => PTE2PA_PA2PTE_or (h.aligned _ hc) (by decide)⟩
  · rw [if_neg hc]
    exact ⟨⟨fun hV => absurd hV zero_invalid, fun hm => absurd hm hc⟩, fun hm => absurd hm hc⟩

theorem Kpt.isTablePage_iff (h : Kpt s t) (hi : t.Indexed) :
    IsTablePage s.mem (t.addr .root) p ↔ ∃ a ∈ t.dom, t.addr a = p := by
  have hroot := h.table.root_mem
  constructor
  · rintro (rfl | ⟨i, hlt, hV, hp⟩)
    · exact ⟨_, hroot, rfl⟩
    · obtain ⟨hiff, haddr⟩ := h.link_iff hroot (by decide) hlt
      have hm := hiff.mp hV
      rw [haddr hm] at hp
      rcases hp with rfl | ⟨j, hj, hV', rfl⟩
      · exact ⟨_, hm, rfl⟩
      · obtain ⟨hiff', haddr'⟩ := h.link_iff hm Nat.one_ne_zero hj
        have hm' := hiff'.mp hV'
        exact ⟨_, hm', (haddr' hm').symm⟩
  · rintro ⟨a, ha, rfl⟩
    -- a table hangs from the one above it
    have hmid : ∀ i, Node.mid i ∈ t.dom → i < 512 ∧ pteAt s.mem (t.addr .root) i &&& PTE_V ≠ 0 ∧
        PTE2PA (pteAt s.mem (t.addr .root) i) = t.addr (.mid i) := by
      intro i hm
      have hlt : i < 512 := hi _ hm
      obtain ⟨hiff, haddr⟩ := h.link_iff hroot (by decide) hlt
      exact ⟨hlt, hiff.mpr hm, haddr hm⟩
    cases a with
    | root => exact Or.inl rfl
    | mid i =>
      obtain ⟨hlt, hV, haddr⟩ := hmid i ha
      exact Or.inr ⟨i, hlt, hV, Or.inl haddr.symm⟩
    | leaf i j =>
      have hm := h.table.mid_mem i j ha
      obtain ⟨hlt, hV, haddr⟩ := hmid i hm
      have hj : j < 512 := (hi _ ha).2
      obtain ⟨hiff, haddr'⟩ := h.link_iff hm Nat.one_ne_zero hj
      refine Or.inr ⟨i, hlt, hV, Or.inr ⟨j, hj, ?_⟩⟩
      rw [haddr]
      exact ⟨hiff.mpr ha, (haddr' ha).symm⟩

theorem chain_reaches {head : Addr} (h : Chain m head l) : Reaches m head p ↔ p ∈ l := by
  induction l generalizing head with
  | nil =>
    have h0 : head = 0 := h
    refine ⟨fun hr => ?_, fun hm => absurd hm List.not_mem_nil⟩
    cases hr with
    | here hne => exact absurd h0 hne
    | next hne _ => exact absurd h0 hne
  | cons q l ih =>
    obtain ⟨rfl, h0, hc⟩ := h
    rw [List.mem_cons, ← ih hc]
    constructor
    · intro hr
      cases hr with
      | here => exact Or.inl rfl
      | next _ hr => exact Or.inr hr
    · rintro (rfl | hr)
      · exact .here h0
      · exact .next h0 hr

def Loose (s : Kmem) (root p : Addr) : Prop := ¬ OnFreeList s p ∧ ¬ IsTablePage s.mem root p

theorem Kpt.loose_iff (h : Kpt s t) (hi : t.Indexed) : Loose s (t.addr .root) p ↔ p ∉ t.own := by
  rw [Loose, OnFreeList, chain_reaches h.pool.chain, h.isTablePage_iff hi, Pt.mem_own, not_or, and_comm]

/-! ## Tables that are built -/

/-- `uvmunmap` may free the pages of its range: nobody has them, and no two are the same. -/
def MayFree (s : Kmem) (root va : Addr) (npages : BitVec 64) : Prop :=
  (∀ i < pageCount va npages, Loose s root (PTE2PA (entry root (off va (PGSIZE * i)) s))) ∧
    ∀ i < pageCount va npages, ∀ j < pageCount va npages,
      PTE2PA (entry root (off va (PGSIZE * i)) s) = PTE2PA (entry root (off va (PGSIZE * j)) s) → i = j

/-- A table at `root` and the memory it is in. -/
inductive Built (sym : Symbols) (root : Addr) : Kmem → Prop
  | uvmcreate {s s' : Kmem} {l : List Addr} : Pool s.mem s.freelist l → (∀ p ∈ l, IsPage sym p) →
      uvmcreate s = (root, s') → root ≠ 0 → Built sym root s'
  | mappages {s s' : Kmem} {va pa : Addr} {size perm : BitVec 64} {r : ℤ} : Built sym root s →
      mappages root va size pa perm s = some (r, s') → Built sym root s'
  | uvmunmap {s s' : Kmem} {va : Addr} {npages : BitVec 64} {doFree : Bool} : Built sym root s →
      (doFree = true → MayFree s root va npages) → uvmunmap sym root va npages doFree s = some s' → Built sym root s'
  | uvmclear {s s' : Kmem} {va : Addr} : Built sym root s → uvmclear root va s = some s' → Built sym root s'
  -- what others do with the pages that are not of this table
  | kalloc {s : Kmem} : Built sym root s → Built sym root (kalloc s).2
  | kfree {s s' : Kmem} {p : Addr} : Built sym root s → Loose s root p → kfree sym p s = some s' → Built sym root s'
  | write {s : Kmem} {m : Mem} {X : Set Addr} : Built sym root s → Frame X s.mem m →
      (∀ p, ¬ Loose s root p → Disjoint (page p) X) → Built sym root ⟨m, s.freelist⟩

/-- What is known of a table that was built. -/
structure Known (sym : Symbols) (root : Addr) (s : Kmem) (t : Pt) : Prop where
  kpt : Kpt s t
  indexed : t.Indexed
  root : t.addr .root = root
  isPage : ∀ p ∈ t.own, IsPage sym p

theorem Known.step (h : Known sym root s t) (hs : Step s t s' t') : Known sym root s' t' :=
  ⟨hs.kpt, hs.indexed h.indexed, hs.root.trans h.root, fun p hp => h.isPage p (hs.own ▸ hp)⟩

theorem mappages_some {r : ℤ × Kmem} (h : mappages root va size pa perm s = some r) :
    Aligned va ∧ size.toNat % PGSIZE = 0 ∧ size ≠ 0 := by
  unfold mappages at h
  split at h
  · cases h
  · next h1 =>
    split at h
    · cases h
    · next h2 =>
      split at h
      · cases h
      · next h3 => exact ⟨not_not.mp h1, not_not.mp h2, h3⟩

/-- `mappages` that ends has mapped the first pages of its range, and all of them if it returns 0. -/
theorem Known.mappages (h : Known sym root s t) {r : ℤ}
    (hrun : mappages root va size pa perm s = some (r, s')) :
    ∃ j ≤ size.toNat / PGSIZE, ((r = 0 ∧ j = size.toNat / PGSIZE) ∨ (r = -1 ∧ j < size.toNat / PGSIZE)) ∧
      vpn va + j ≤ 2 ^ 26 ∧ ∃ t', Step s t s' t' ∧ lookup s'.mem t' = mapRange (lookup s.mem t) (vpn va) j pa perm := by
  obtain ⟨hva, hsz, h0⟩ := mappages_some hrun
  have hroot := h.root
  subst hroot
  rcases h.kpt.mappages va pa size perm hva hsz h0 with
    ⟨hm, _⟩ | ⟨hmax, s₁, t', hm, hstep, hmap⟩ | ⟨j, hj, hmax, s₁, t', hm, hstep, hmap, _⟩
  · rw [hrun] at hm
    cases hm
  · rw [hrun] at hm
    cases hm
    exact ⟨_, le_rfl, Or.inl ⟨rfl, rfl⟩, hmax, t', hstep, hmap⟩
  · rw [hrun] at hm
    cases hm
    exact ⟨j, hj.le, Or.inr ⟨rfl, hj⟩, hmax.le, t', hstep, hmap⟩

theorem Known.fresh (h : Known sym root s t) (hfree : MayFree s root va npages) {k : ℕ} (hk : k ≤ pageCount va npages)
    (hmax : vpn va + k ≤ 2 ^ 26) : Fresh s t (vpn va) k := by
  have hroot := h.root
  subst hroot
  have hentry : ∀ i < k, entry (t.addr .root) (off va (PGSIZE * i)) s = lookup s.mem t (vpn va + i) := by
    intro i hi
    have hvpn : vpn (off va (PGSIZE * i)) = vpn va + i := by
      refine vpn_off ?_
      unfold vpn PGSIZE at *
      omega
    rw [h.kpt.entry_eq (lt_MAXVA_iff.mpr (by omega)), hvpn]
  constructor
  · intro i hi
    have hl := (h.kpt.loose_iff h.indexed).mp (hfree.1 i (by omega))
    rw [hentry i hi] at hl
    exact hl
  · intro i hi j hj he
    refine hfree.2 i (by omega) j (by omega) ?_
    rw [hentry i hi, hentry j hj]
    exact he

theorem Known.uvmunmap (h : Known sym root s t) (hsym : sym.Fits) {doFree : Bool}
    (hfree : doFree = true → MayFree s root va npages) (hrun : uvmunmap sym root va npages doFree s = some s') :
    Aligned va ∧ lookup s'.mem t = clearRange (lookup s.mem t) (vpn va) (pageCount va npages) ∧
      ∃ l, Known sym root s' (t.give l) := by
  have hroot := h.root
  have hfresh := fun hd k hk hmax => h.fresh (hfree hd) (k := k) hk hmax
  subst hroot
  obtain ⟨hal, hall, hc⟩ := h.kpt.uvmunmap_done hsym hfresh hrun
  refine ⟨hal, hc.map, freed s t doFree (vpn va) (pageCount va npages), hc.kpt, h.indexed, rfl, ?_⟩
  intro p hp
  rcases Pt.mem_give.mp hp with hp | hp
  · exact h.isPage p hp
  · cases doFree with
    | false => cases hp
    | true =>
      obtain ⟨i, hi, rfl⟩ := mem_leafPages.mp hp
      exact (hall i hi).2.2 rfl

def Pt.single (p : Addr) (l : List Addr) : Pt := ⟨{.root}, fun _ => p, l⟩

theorem Pt.mem_single_own {q : Addr} : q ∈ (Pt.single p l).own ↔ q ∈ p :: l := by
  rw [Pt.mem_own, List.mem_cons]
  constructor
  · rintro (⟨a, _, he⟩ | hq)
    · exact Or.inl he.symm
    · exact Or.inr hq
  · rintro (rfl | hq)
    · exact Or.inl ⟨.root, Finset.mem_singleton_self _, rfl⟩
    · exact Or.inr hq

theorem uvmcreate_known (hpool : Pool s.mem s.freelist (p :: l)) (hl : ∀ q ∈ p :: l, IsPage sym q) :
    ∃ s', uvmcreate s = (p, s') ∧ Known sym p s' (Pt.single p l) ∧ (∀ v, lookup s'.mem (Pt.single p l) v = 0) ∧
      Frame (page p) (kalloc s).2.mem s'.mem ∧ s'.freelist = (kalloc s).2.freelist := by
  obtain ⟨hp, hne, _⟩ := kalloc_cons hpool
  obtain ⟨hk, hmap⟩ := Kpt.new hpool fun q hq => (hl q hq).low
  have hf := memset_page_frame (kalloc s).2.mem p 0
  rw [uvmcreate, hp, if_neg hne]
  generalize memset (kalloc s).2.mem p 0 PGSIZE = m at hk hmap hf ⊢
  refine ⟨_, rfl, ⟨hk, ?_, rfl, fun q hq => hl q (Pt.mem_single_own.mp hq)⟩, hmap, hf, rfl⟩
  intro a ha
  rw [Finset.mem_singleton.mp ha]
  trivial

theorem known_of_uvmcreate (hpool : Pool s.mem s.freelist l) (hl : ∀ p ∈ l, IsPage sym p)
    (hrun : uvmcreate s = (root, s')) (h0 : root ≠ 0) : ∃ t, Known sym root s' t := by
  cases l with
  | nil =>
    rw [uvmcreate, kalloc_nil hpool, if_pos rfl] at hrun
    cases hrun
    exact absurd rfl h0
  | cons p l =>
    obtain ⟨s₁, hrun', ht, _⟩ := uvmcreate_known hpool hl
    rw [hrun] at hrun'
    cases hrun'
    exact ⟨_, ht⟩

theorem Known.kalloc (h : Known sym root s t) : ∃ t', Known sym root (kalloc s).2 t' := by
  cases hfree : t.free with
  | nil =>
    have hpool := h.kpt.pool
    rw [hfree] at hpool
    rw [kalloc_nil hpool]
    exact ⟨t, h⟩
  | cons p l =>
    refine ⟨_, (h.kpt.kalloc hfree).1, h.indexed, h.root, fun q hq => h.isPage q ?_⟩
    rcases Pt.mem_own.mp hq with ha | hq
    · exact Pt.mem_own.mpr (Or.inl ha)
    · refine Pt.free_mem_own ?_
      rw [hfree]
      exact List.mem_cons_of_mem _ hq

theorem Built.known (hsym : sym.Fits) (h : Built sym root s) : ∃ t, Known sym root s t := by
  induction h with
  | uvmcreate hpool hl hrun h0 =>
    exact known_of_uvmcreate hpool hl hrun h0
  | mappages _ hrun ih =>
    obtain ⟨t, ht⟩ := ih
    obtain ⟨_, _, _, _, t', hstep, _⟩ := ht.mappages hrun
    exact ⟨t', ht.step hstep⟩
  | uvmunmap _ hfree hrun ih =>
    obtain ⟨t, ht⟩ := ih
    obtain ⟨_, _, l, hl⟩ := ht.uvmunmap hsym hfree hrun
    exact ⟨_, hl⟩
  | uvmclear _ hrun ih =>
    obtain ⟨t, ht⟩ := ih
    have hroot := ht.root
    subst hroot
    exact ⟨t, ht.step (ht.kpt.uvmclear_done hrun).2.1⟩
  | kalloc _ ih =>
    obtain ⟨t, ht⟩ := ih
    exact ht.kalloc
  | kfree _ hloose hrun ih =>
    obtain ⟨t, ht⟩ := ih
    have hroot := ht.root
    subst hroot
    have hp := kfree_isPage hrun
    obtain ⟨s₁, hrun', hk, _⟩ := ht.kpt.kfree hsym hp ((ht.kpt.loose_iff ht.indexed).mp hloose)
    rw [hrun] at hrun'
    cases hrun'
    refine ⟨_, hk, ht.indexed, rfl, fun q hq => ?_⟩
    rcases Pt.mem_give.mp hq with hq | hq
    · exact ht.isPage q hq
    · rw [List.mem_singleton.mp hq]
      exact hp
  | @write s₁ m X _ hframe hd ih =>
    obtain ⟨t, ht⟩ := ih
    have hroot := ht.root
    subst hroot
    have hown : ∀ p ∈ t.own, Disjoint (page p) X := fun p hp =>
      hd p fun hl => (ht.kpt.loose_iff ht.indexed).mp hl hp
    have hpool : Pool (Kmem.mem ⟨m, s₁.freelist⟩) (Kmem.freelist ⟨m, s₁.freelist⟩) t.free :=
      ht.kpt.pool.frame hframe fun p hp => hown p (Pt.free_mem_own hp)
    obtain ⟨hk, _⟩ := ht.kpt.transfer hframe (fun a ha => hown _ (Pt.addr_mem_own ha)) hpool ht.kpt.low ht.kpt.fresh
    exact ⟨t, hk, ht.indexed, rfl, ht.isPage⟩

/-! ## The map -/

/-- `walk` finds an entry with this page and these flags. -/
def Finds (root va pa : Addr) (flags : BitVec 64) (s : Kmem) : Prop :=
  ∃ pte, walk root va false s = some (pte, s) ∧ pte ≠ 0 ∧ PTE2PA (load 64 s.mem pte) = pa ∧
    PTE_FLAGS (load 64 s.mem pte) = flags

theorem Kpt.finds (h : Kpt s t) (hva : va < MAXVA) (h0 : lookup s.mem t (vpn va) ≠ 0) :
    Finds (t.addr .root) va (PTE2PA (lookup s.mem t (vpn va))) (PTE_FLAGS (lookup s.mem t (vpn va))) s := by
  have hm := leafOf_mem h0
  refine ⟨t.slot (vpn va), ?_, h.slot_ne hm, ?_, ?_⟩
  · rw [h.walk_slot hva, if_pos hm]
  · rw [load_slot hm]
  · rw [load_slot hm]

/-- The pages from `va`, `n` of them. -/
def InRange (va : Addr) (n : ℕ) (a : Addr) : Prop := va.toNat ≤ a.toNat ∧ a.toNat < va.toNat + PGSIZE * n

theorem inRange_iff (hva : Aligned va) {a : Addr} : InRange va n a ↔ vpn va ≤ vpn a ∧ vpn a < vpn va + n := by
  have hal : va.toNat % 4096 = 0 := hva
  unfold InRange vpn PGSIZE
  omega

theorem pageCount_of_lt (h : va.toNat + PGSIZE * npages.toNat < 2 ^ 64) : pageCount va npages = npages.toNat := by
  have hmul : (npages * BitVec.ofNat 64 PGSIZE).toNat = PGSIZE * npages.toNat := by
    rw [BitVec.toNat_mul, BitVec.toNat_ofNat]
    unfold PGSIZE at *
    omega
  have hsum : (va + npages * BitVec.ofNat 64 PGSIZE).toNat = va.toNat + PGSIZE * npages.toNat := by
    rw [BitVec.toNat_add, hmul, Nat.mod_eq_of_lt h]
  rw [pageCount, hsum]
  unfold PGSIZE
  omega

/-- What the calls do to the table as a map. -/
structure PartialMap (sym : Symbols) (root : Addr) (s : Kmem) : Prop where
  mappages : ∀ (va pa : Addr) (size perm : BitVec 64) (r : ℤ) (s' : Kmem),
    mappages root va size pa perm s = some (r, s') → ∃ j,
      ((r = 0 ∧ j = size.toNat / PGSIZE) ∨ (r = -1 ∧ j < size.toNat / PGSIZE)) ∧
      (Aligned pa → perm.toNat < 1024 → ∀ i < j,
        Finds root (off va (PGSIZE * i)) (off pa (PGSIZE * i)) (perm ||| PTE_V) s') ∧
      ∀ a < MAXVA, ¬ InRange va j a → entry root a s' = entry root a s
  uvmunmap : ∀ (va : Addr) (npages : BitVec 64) (doFree : Bool) (s' : Kmem),
    va.toNat + PGSIZE * npages.toNat < 2 ^ 64 → (doFree = true → MayFree s root va npages) →
    uvmunmap sym root va npages doFree s = some s' → ∀ a < MAXVA,
      (InRange va npages.toNat a → entry root a s' = 0) ∧ (¬ InRange va npages.toNat a → entry root a s' = entry root a s)

theorem Known.partialMap (hsym : sym.Fits) (h : Known sym root s t) : PartialMap sym root s where
  mappages := by
    intro va pa size perm r s' hrun
    have hva := (mappages_some hrun).1
    obtain ⟨j, _, hr, hmax, t', hstep, hmap⟩ := h.mappages hrun
    have h' := h.step hstep
    have hroot := h'.root
    have hroot' := h.root
    refine ⟨j, hr, ?_, ?_⟩
    · intro hpa hperm i hi
      have hvpn : vpn (off va (PGSIZE * i)) = vpn va + i := by
        refine vpn_off ?_
        unfold vpn PGSIZE at *
        omega
      have hl : lookup s'.mem t' (vpn (off va (PGSIZE * i))) = PA2PTE (off pa (PGSIZE * i)) ||| (perm ||| PTE_V) := by
        rw [hmap, hvpn, mapRange_of_mem (Nat.le_add_right _ _) (by omega), Nat.add_sub_cancel_left, BitVec.or_assoc]
      have hne : lookup s'.mem t' (vpn (off va (PGSIZE * i))) ≠ 0 := by
        intro h0
        have := or_PTE_V_valid (PA2PTE (off pa (PGSIZE * i)) ||| perm)
        rw [BitVec.or_assoc, ← hl, h0] at this
        exact zero_invalid this
      have hf := h'.kpt.finds (lt_MAXVA_iff.mpr (by omega)) hne
      have hal : Aligned (off pa (PGSIZE * i)) := by
        have hpa' : pa.toNat % 4096 = 0 := hpa
        change (pa + BitVec.ofNat 64 (4096 * i)).toNat % 4096 = 0
        rw [BitVec.toNat_add, BitVec.toNat_ofNat]
        omega
      rw [hl, PTE2PA_PA2PTE_or hal (or_PTE_V_lt hperm), PTE_FLAGS_PA2PTE_or _ (or_PTE_V_lt hperm), hroot] at hf
      exact hf
    · intro a ha hn
      rw [inRange_iff hva] at hn
      have he := h'.kpt.entry_eq ha
      have he' := h.kpt.entry_eq ha
      rw [hroot] at he
      rw [hroot'] at he'
      rw [he, he', hmap, mapRange_of_not_mem (by omega)]
  uvmunmap := by
    intro va npages doFree s' hlt hfree hrun a ha
    obtain ⟨hva, hmap, l, h'⟩ := h.uvmunmap hsym hfree hrun
    have hroot := h'.root
    have hroot' := h.root
    have he : entry _ a s' = lookup s'.mem t (vpn a) := h'.kpt.entry_eq ha
    have he' := h.kpt.entry_eq ha
    rw [hroot] at he
    rw [hroot'] at he'
    rw [he, he', hmap, inRange_iff hva, pageCount_of_lt hlt]
    exact ⟨fun hin => clearRange_of_mem hin.1 hin.2, fun hn => clearRange_of_not_mem (by omega)⟩

/-- **Page tables are partial maps.** -/
theorem table_is_partial_map (hsym : sym.Fits) (h : Built sym root s) : PartialMap sym root s := by
  obtain ⟨t, ht⟩ := h.known hsym
  exact ht.partialMap hsym

/-! ## A table on a pool of pages -/

theorem chain_unique {head : Addr} {l l' : List Addr} (h : Chain m head l) (h' : Chain m head l') : l = l' := by
  induction l generalizing head l' with
  | nil =>
    have h0 : head = 0 := h
    cases l' with
    | nil => rfl
    | cons q l' => exact absurd (h'.1.symm.trans h0) h'.2.1
  | cons p l ih =>
    obtain ⟨rfl, h0, hc⟩ := h
    cases l' with
    | nil => exact absurd h' h0
    | cons q l' =>
      obtain ⟨rfl, _, hc'⟩ := h'
      rw [ih hc hc']

def firstNodes : Finset Node := {.root, .mid 0, .leaf 0 0}

theorem firstNodes_cover (hn : n ≤ 512) : Covers firstNodes 0 n := by
  intro x _ hx
  have hm : midOf x = .mid 0 := by rw [midOf, Nat.div_eq_of_lt (by omega)]
  have hl : leafOf x = .leaf 0 0 := by rw [leafOf, Nat.div_eq_of_lt (by omega), Nat.div_eq_of_lt (by omega)]
  rw [hm, hl]
  exact ⟨by decide, by decide⟩

theorem mappages_of_kvmmap (h : kvmmap root va pa size perm s = some s') :
    mappages root va size pa perm s = some (0, s') := by
  rw [kvmmap] at h
  obtain ⟨⟨r, s₂⟩, hm, hr⟩ := Option.bind_eq_some_iff.mp h
  split at hr
  · cases hr
  · next hr0 =>
    have hr0' : r = 0 := not_not.mp hr0
    cases hr
    rw [hm, hr0']

theorem single_space {S : Finset Node} {k : ℕ} (hknown : Known sym p s (Pt.single p l))
    (hz : ∀ v, lookup s.mem (Pt.single p l) v = 0) (hS : .root ∈ S) (hroom : S.card + k ≤ l.length + 1) :
    Space S k p (fun _ => 0) s (Pt.single p l) :=
  ⟨hknown.kpt, rfl, Finset.singleton_subset_iff.mpr hS, hroom, hz⟩

theorem first_pages (hpool : Pool s.mem s.freelist (p :: l)) (hl : ∀ q ∈ p :: l, IsPage sym q) (hlen : 2 ≤ l.length)
    (pa : Addr) (perm : BitVec 64) (h0 : 0 < n) (hn : n ≤ 512) :
    ∃ s' t, mappages p 0 (BitVec.ofNat 64 (PGSIZE * n)) pa perm (uvmcreate s).2 = some (0, s') ∧
      Known sym p s' t ∧ lookup s'.mem t = mapRange (fun _ => 0) 0 n pa perm ∧ l.length ≤ t.free.length + 2 ∧
      Frame (region (p :: l).toFinset) s.mem s'.mem := by
  obtain ⟨s₁, hrun, hknown, hz, hf, _⟩ := uvmcreate_known hpool hl
  rw [hrun]
  have hspace : Space firstNodes (l.length - 2) p (fun _ => 0) s₁ (Pt.single p l) :=
    single_space hknown hz (by decide) (by change 3 + (l.length - 2) ≤ l.length + 1; omega)
  have hsz : (BitVec.ofNat 64 (PGSIZE * n)).toNat = PGSIZE * n := by
    rw [BitVec.toNat_ofNat]
    unfold PGSIZE
    omega
  obtain ⟨s', t', hkv, hs, _⟩ := hspace.kvmmap 0 pa (BitVec.ofNat 64 (PGSIZE * n)) perm rfl hsz h0
    (by rw [show (0 : Addr).toNat = 0 from rfl]; unfold PGSIZE; omega) (firstNodes_cover hn) fun _ _ _ => rfl
  -- the run that `Space` knows to succeed keeps what is known
  have hm := mappages_of_kvmmap hkv
  obtain ⟨j, _, hj, _, t, hstep, hmap⟩ := hknown.mappages hm
  have hj' : j = n := by
    rcases hj with ⟨_, hj⟩ | ⟨h1, _⟩
    · rw [hj, hsz, Nat.mul_div_cancel_left _ (by decide)]
    · cases h1
  have hfree : t.free = t'.free := chain_unique hstep.kpt.pool.chain hs.kpt.pool.chain
  have hroom := hs.room
  have hcard := Finset.card_le_card hs.bound
  refine ⟨s', t, hm, hknown.step hstep, ?_, ?_, ?_⟩
  · rw [hmap, hj']
    exact congrArg (fun f => mapRange f 0 n pa perm) (funext hz)
  · rw [hfree]
    omega
  · have hin : p ∈ (p :: l).toFinset := List.mem_toFinset.mpr List.mem_cons_self
    have hown : (Pt.single p l).own ⊆ (p :: l).toFinset := fun q hq => List.mem_toFinset.mpr (Pt.mem_single_own.mp hq)
    have hpage := ((kalloc_cons hpool).2.2.2.trans hf).mono (page_subset_region hin)
    exact hpage.trans (hstep.frame.mono (region_mono hown))

/-! ## A table in three pages -/

def threeFree : Kmem :=
  ⟨store (store (fun _ => 0) 0x88fff000#64 0x88ffe000#64) 0x88ffe000#64 0x88ffd000#64, 0x88fff000#64⟩

def threePages : List Addr := [0x88fff000#64, 0x88ffe000#64, 0x88ffd000#64]

theorem threePages_isPage : ∀ p ∈ threePages, IsPage linked p := by
  intro p hp
  simp only [threePages, List.mem_cons, List.not_mem_nil, or_false] at hp
  rcases hp with rfl | rfl | rfl <;> exact ⟨by decide, by decide, by decide⟩

theorem threeFree_pool : Pool threeFree.mem threeFree.freelist threePages where
  chain := by
    refine ⟨rfl, by decide, by decide, by decide, by decide, by decide, ?_⟩
    change load 64 threeFree.mem 0x88ffd000#64 = 0
    decide
  aligned := fun p hp => (threePages_isPage p hp).aligned
  nodup := by decide

theorem threeFree_root : (uvmcreate threeFree).1 = 0x88fff000#64 := by
  obtain ⟨s', hrun, _⟩ := uvmcreate_known threeFree_pool threePages_isPage
  rw [hrun]

theorem three_built : Built linked 0x88fff000#64 (uvmcreate threeFree).2 :=
  .uvmcreate threeFree_pool threePages_isPage (Prod.ext threeFree_root rfl) (by decide)

/-- With its first two pages mapped. -/
theorem three_partial_map : ∃ s, mappages 0x88fff000#64 0 0x2000#64 KERNBASE (PTE_R ||| PTE_U) (uvmcreate threeFree).2 =
      some (0, s) ∧ Built linked 0x88fff000#64 s ∧ PartialMap linked 0x88fff000#64 s := by
  obtain ⟨s, _, hrun, _⟩ := first_pages threeFree_pool threePages_isPage le_rfl KERNBASE (PTE_R ||| PTE_U) Nat.two_pos
    (by decide)
  have hb : Built linked 0x88fff000#64 s := .mappages three_built hrun
  exact ⟨s, hrun, hb, table_is_partial_map linked_fits hb⟩

theorem freelist_invalid {head : Addr} (h : Pool m head l) : head &&& PTE_V = 0 := by
  cases l with
  | nil =>
    have h0 : head = 0 := h.chain
    rw [h0]
    rfl
  | cons p l =>
    have hal : head.toNat % 4096 = 0 := by
      rw [h.chain.1]
      exact h.aligned p List.mem_cons_self
    apply BitVec.eq_of_toNat_eq
    rw [BitVec.toNat_and]
    change head.toNat &&& (2 ^ 1 - 1) = 0
    rw [Nat.and_two_pow_sub_one_eq_mod]
    omega

theorem walk_of_invalid (hva : va.toNat < 2 ^ 30) (h : load 64 s.mem root &&& PTE_V = 0) :
    walk root va false s = some (0, s) := by
  have hlt : va < MAXVA := by
    rw [BitVec.lt_def, MAXVA_toNat]
    omega
  have hpx : PX 2 va = 0 := by
    rw [PX_eq]
    omega
  have hlev : walkLevel false va (1 + 1) root s = (none, s) := by
    unfold walkLevel
    rw [hpx, Nat.mul_zero, off_zero, if_neg (not_not.mpr h)]
    rfl
  exact walk_eq hlt (walkLoop_none hlev)

theorem entry_of_invalid (hva : va.toNat < 2 ^ 30) (h : load 64 s.mem root &&& PTE_V = 0) : entry root va s = 0 := by
  rw [entry, walk_of_invalid hva h]
  rfl

/-- `uvmunmap` of page 0 frees the root, and page 1 is gone as well. -/
theorem three_root_freed : ∃ s s', mappages 0x88fff000#64 0 0x2000#64 0x88fff000#64 (PTE_R ||| PTE_W ||| PTE_U)
      (uvmcreate threeFree).2 = some (0, s) ∧ uvmunmap linked 0x88fff000#64 0 1 true s = some s' ∧
    entry 0x88fff000#64 0x1000#64 s = PA2PTE 0x89000000#64 ||| (PTE_R ||| PTE_W ||| PTE_U) ||| PTE_V ∧
    entry 0x88fff000#64 0x1000#64 s' = 0 := by
  obtain ⟨s, t, hrun, hknown, hmap, _⟩ := first_pages threeFree_pool threePages_isPage le_rfl 0x88fff000#64
    (PTE_R ||| PTE_W ||| PTE_U) Nat.two_pos (by decide)
  have hk := hknown.kpt
  have hroot := hknown.root
  have hleaf : leafOf 0 ∈ t.dom := leafOf_mem (by rw [hmap]; decide)
  -- the page of the entry is not the root
  have hd : Disjoint (page (t.addr (leafOf 0))) (page 0x88fff000#64) := by
    rw [← hroot]
    exact hk.page_disjoint hleaf hk.table.root_mem (by decide)
  have hlook : lookup s.mem t (vpn 0) = PA2PTE 0x88fff000#64 ||| (PTE_R ||| PTE_W ||| PTE_U) ||| PTE_V := by
    rw [hmap]
    rfl
  obtain ⟨s₁, hfree, _, hload, _⟩ := kfree_spec (threePages_isPage 0x88fff000#64 (by decide)) s
  have hstep : unmapPage linked (t.addr .root) true 0 s = some ⟨store s₁.mem (t.slot 0) (0 : BitVec 64), s₁.freelist⟩ := by
    rw [hk.unmapPage_eq true 0, hlook, if_pos (by decide), if_pos rfl]
    exact congrArg (Option.map _) hfree
  have hkeep := (store64_frame s₁.mem (t.slot 0) 0).load_eq (w := 64) (a := 0x88fff000#64)
    ((hd.mono_left (slot_subset _ (by decide))).symm.mono_left (first_word_subset_page _)) (by decide)
  refine ⟨s, ⟨store s₁.mem (t.slot 0) (0 : BitVec 64), s₁.freelist⟩, hrun, ?_, ?_, ?_⟩
  · rw [hroot] at hstep
    have hone : uvmunmap linked 0x88fff000#64 0 1 true s = (unmapPage linked 0x88fff000#64 true 0 s).bind some := rfl
    rw [hone, hstep]
    rfl
  · have he : entry (t.addr .root) 0x1000#64 s = lookup s.mem t 1 := hk.entry_eq (by decide)
    rw [hroot, hmap] at he
    exact he
  · refine entry_of_invalid (by decide) ?_
    rw [hkeep, hload]
    exact freelist_invalid hk.pool

end Xv6Boot.Kernel
