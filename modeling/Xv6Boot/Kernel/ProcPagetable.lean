import Xv6Boot.Kernel.UserSpace

/-! # The page table of a process, made and freed

`freewalk` frees the nodes of a table that maps nothing, children first. `proc_pagetable` makes a table with the
trampoline and the trap frame, and `proc_freepagetable` frees a table with all of its pages.
-/

namespace Xv6Boot.Kernel
open Function ByteMemory Loop StringC Pages

variable {sym : Symbols} {s s₁ s' : Kmem} {t t₁ t' : Pt} {root p va : Addr} {l : List Addr} {v k n i : ℕ} {a c : Node}

/-! ## `proc.c` -/

def procPagetable (sym : Symbols) (trapframe : Addr) (s : Kmem) : Option (Addr × Kmem) :=
  let pagetable := (uvmcreate s).1
  let s := (uvmcreate s).2
  if pagetable = 0 then some (0, s)
  else do
    let r ← mappages pagetable TRAMPOLINE (BitVec.ofNat 64 PGSIZE) sym.trampoline (PTE_R ||| PTE_X) s
    if r.1 < 0 then
      let s ← uvmfree sym pagetable 0 r.2
      some (0, s)
    else
      let r ← mappages pagetable TRAPFRAME (BitVec.ofNat 64 PGSIZE) trapframe (PTE_R ||| PTE_W) r.2
      if r.1 < 0 then
        let s ← uvmunmap sym pagetable TRAMPOLINE 1 false r.2
        let s ← uvmfree sym pagetable 0 s
        some (0, s)
      else some (pagetable, r.2)

def procFreepagetable (sym : Symbols) (pagetable : Addr) (sz : BitVec 64) (s : Kmem) : Option Kmem := do
  let s ← uvmunmap sym pagetable TRAMPOLINE 1 false s
  let s ← uvmunmap sym pagetable TRAPFRAME 1 false s
  uvmfree sym pagetable sz s

/-! ## Nodes below a node -/

def Node.Below : Node → Node → Prop
  | .root, .mid _ => True
  | .root, .leaf _ _ => True
  | .mid i, .leaf i' _ => i = i'
  | _, _ => False

theorem Node.below_child (hc : c.level ≠ 0) (i : ℕ) : c.Below (c.child i) := by
  cases c with
  | root => trivial
  | mid j => exact rfl
  | leaf j k => exact absurd rfl hc

theorem Node.below_of_child (hc : c.level ≠ 0) {b : Node} (h : (c.child i).Below b) : c.Below b := by
  cases c with
  | root => cases b <;> trivial
  | mid j => cases b <;> exact absurd h id
  | leaf j k => exact absurd rfl hc

theorem Node.child_level (hc : c.level ≠ 0) (i : ℕ) : (c.child i).level + 1 = c.level := by
  cases c with
  | root => rfl
  | mid j => rfl
  | leaf j k => exact absurd rfl hc

/-! ## Freeing one node -/

def Pt.drop (t : Pt) (c : Node) : Pt := ⟨t.dom.erase c, t.addr, t.addr c :: t.free⟩

theorem Pt.drop_own (hc : c ∈ t.dom) : (t.drop c).own = t.own := by
  ext q
  rw [Pt.mem_own, Pt.mem_own]
  constructor
  · rintro (⟨a, ha, he⟩ | hq)
    · exact Or.inl ⟨a, Finset.mem_of_mem_erase ha, he⟩
    · rcases List.mem_cons.mp hq with rfl | hq
      · exact Or.inl ⟨c, hc, rfl⟩
      · exact Or.inr hq
  · rintro (⟨a, ha, he⟩ | hq)
    · by_cases hac : a = c
      · subst hac
        exact Or.inr (List.mem_cons.mpr (Or.inl he.symm))
      · exact Or.inl ⟨a, Finset.mem_erase.mpr ⟨hac, ha⟩, he⟩
    · exact Or.inr (List.mem_cons_of_mem _ hq)

section Drop
variable (h : Kpt s t) (ha : a ∈ t.dom) (hi : i < 512) (hc : a.child i ∈ t.dom)
include h ha hi hc

theorem pteAt_dropped {m : Mem} (hf : Frame (page (t.addr (a.child i))) s.mem m) {b : Node}
    (hb : b ∈ t.dom.erase (a.child i)) {j : ℕ} (hj : j < 512) :
    pteAt (store m (off (t.addr a) (8 * i)) (0 : BitVec 64)) (t.addr b) j =
      if b = a ∧ j = i then 0 else pteAt s.mem (t.addr b) j := by
  have hb' := Finset.mem_of_mem_erase hb
  have hne : t.addr b ≠ t.addr (a.child i) := fun he => Finset.ne_of_mem_erase hb (h.inj b hb' _ hc he)
  have hiff : (t.addr b = t.addr a ∧ j = i) ↔ (b = a ∧ j = i) :=
    and_congr_left fun _ => ⟨fun he => h.inj b hb' a ha he, fun he => he ▸ rfl⟩
  rw [pteAt_store (h.aligned a ha) (h.aligned b hb') hi hj, if_congr hiff rfl rfl]
  split
  · rfl
  · exact pteAt_frame hf (page_disjoint (h.aligned b hb') (h.aligned _ hc) hne) hj

theorem Kpt.drop (hlev : a.level ≠ 0) (hno : (a.child i).level ≠ 0 → ∀ j, (a.child i).child j ∉ t.dom)
    (hp : IsPage sym (t.addr (a.child i))) :
    ∃ s₁, Kernel.kfree sym (t.addr (a.child i)) s = some s₁ ∧
      Kpt ⟨store s₁.mem (off (t.addr a) (8 * i)) (0 : BitVec 64), s₁.freelist⟩ (t.drop (a.child i)) ∧
      Frame (page (t.addr (a.child i))) s.mem s₁.mem := by
  obtain ⟨s₁, hk, _, _, hf⟩ := kfree_spec hp s
  have hstore := (store64_frame s₁.mem (off (t.addr a) (8 * i)) 0).mono (slot_subset (t.addr a) hi)
  have hanot : t.addr a ∉ t.addr (a.child i) :: t.free := by
    rw [List.mem_cons]
    rintro (he | hin)
    · exact Node.child_ne_self hlev i (h.inj a ha _ hc he).symm
    · exact h.fresh a ha hin
  have hpool := (kfree_pool hp (h.nonzero _ hc) h.pool (h.fresh _ hc) hk).frame_page (h.aligned a ha) hanot hstore
  refine ⟨s₁, hk, ⟨⟨?_, ?_, ?_⟩, hpool, ?_, ?_, ?_, ?_, ?_, ?_⟩, hf⟩
  · exact Finset.mem_erase.mpr ⟨(Node.child_ne_root i).symm, h.table.root_mem⟩
  · intro x y hxy
    have hxy' := Finset.mem_of_mem_erase hxy
    refine Finset.mem_erase.mpr ⟨fun he => ?_, h.table.mid_mem x y hxy'⟩
    rw [← he] at hno
    exact hno Nat.one_ne_zero y hxy'
  · intro b hb hblev j hj
    have hlink := h.table.link b (Finset.mem_of_mem_erase hb) hblev j hj
    change pteAt (store s₁.mem (off (t.addr a) (8 * i)) (0 : BitVec 64)) (t.addr b) j = _
    rw [pteAt_dropped h ha hi hc hf hb hj]
    by_cases hbj : b = a ∧ j = i
    · obtain ⟨rfl, rfl⟩ := hbj
      rw [if_pos ⟨rfl, rfl⟩, if_neg]
      exact Finset.notMem_erase _ _
    · have hne : b.child j ≠ a.child i := fun he => hbj (Node.child_injective hblev hlev he)
      have hiff : b.child j ∈ t.dom ↔ b.child j ∈ (t.drop (a.child i)).dom :=
        ⟨fun hm => Finset.mem_erase.mpr ⟨hne, hm⟩, Finset.mem_of_mem_erase⟩
      rw [if_neg hbj, hlink]
      exact if_congr hiff rfl rfl
  · intro q hq
    rcases List.mem_cons.mp hq with rfl | hq
    · exact h.addr_low _ hc
    · exact h.low q hq
  · exact fun b hb => h.addr_low b (Finset.mem_of_mem_erase hb)
  · exact fun b hb => h.aligned b (Finset.mem_of_mem_erase hb)
  · exact fun b hb => h.nonzero b (Finset.mem_of_mem_erase hb)
  · intro b hb hin
    have hb' := Finset.mem_of_mem_erase hb
    rcases List.mem_cons.mp hin with he | hin
    · exact Finset.ne_of_mem_erase hb (h.inj b hb' _ hc he)
    · exact h.fresh b hb' hin
  · exact fun b hb b' hb' he => h.inj b (Finset.mem_of_mem_erase hb) b' (Finset.mem_of_mem_erase hb') he

end Drop

/-! ## `freewalk` -/

def Table.Bare (m : Mem) (t : Pt) : Prop := ∀ a ∈ t.dom, a.level = 0 → ∀ i < 512, pteAt m (t.addr a) i &&& PTE_V = 0

/-- Nodes below `c` have been freed, and no others. -/
structure Shed (c : Node) (s : Kmem) (t : Pt) (s' : Kmem) (t' : Pt) : Prop where
  kpt : Kpt s' t'
  addr : t'.addr = t.addr
  dom : t'.dom ⊆ t.dom
  keeps : ∀ b ∈ t.dom, ¬ c.Below b → b ∈ t'.dom
  own : t'.own = t.own
  bare : Table.Bare s'.mem t'
  frame : Frame (region t.own) s.mem s'.mem

theorem Shed.refl (h : Kpt s t) (hb : Table.Bare s.mem t) (c : Node) : Shed c s t s t :=
  ⟨h, rfl, subset_rfl, fun _ hb _ => hb, rfl, hb, Frame.refl _ _⟩

theorem Node.not_below_self (c : Node) : ¬ c.Below c := by cases c <;> exact id

theorem Shed.child {s₂ : Kmem} {t₂ : Pt} (h : Shed c s t s₁ t₁) (hlev : c.level ≠ 0) (hi : i < 512) (hm : c ∈ t.dom)
    (hc : c.child i ∈ t₁.dom) (h' : Shed (c.child i) s₁ t₁ s₂ t₂)
    (hno : (c.child i).level ≠ 0 → ∀ j, (c.child i).child j ∉ t₂.dom) (hp : IsPage sym (t.addr (c.child i))) :
    ∃ s₃, kfree sym (t₂.addr (c.child i)) s₂ = some s₃ ∧
      Shed c s t ⟨store s₃.mem (off (t.addr c) (8 * i)) (0 : BitVec 64), s₃.freelist⟩ (t₂.drop (c.child i)) := by
  have hc₂ : c.child i ∈ t₂.dom := h'.keeps _ hc (Node.not_below_self _)
  have hcc : ¬ (c.child i).Below c := by cases c <;> exact id
  have hm₂ : c ∈ t₂.dom := h'.keeps c (h.keeps c hm (Node.not_below_self c)) hcc
  have haddr : t₂.addr = t.addr := h'.addr.trans h.addr
  obtain ⟨s₃, hk, hkpt, hf⟩ := h'.kpt.drop hm₂ hi hc₂ hlev hno (haddr ▸ hp)
  have hown : t₂.own = t.own := h'.own.trans h.own
  refine ⟨s₃, hk, ?_, haddr, ?_, ?_, ?_, ?_, ?_⟩
  · rw [← haddr]
    exact hkpt
  · exact fun b hb => h.dom (h'.dom (Finset.mem_of_mem_erase hb))
  · intro b hb hnb
    refine Finset.mem_erase.mpr ⟨fun he => hnb (he ▸ Node.below_child hlev i), ?_⟩
    exact h'.keeps b (h.keeps b hb hnb) fun hbelow => hnb (Node.below_of_child hlev hbelow)
  · exact (Pt.drop_own hc₂).trans hown
  · intro b hb hb0 j hj
    have hbc : b ≠ c := fun he => hlev (he ▸ hb0)
    change pteAt (store s₃.mem (off (t.addr c) (8 * i)) (0 : BitVec 64)) (t₂.addr b) j &&& PTE_V = 0
    rw [← haddr, pteAt_dropped h'.kpt hm₂ hi hc₂ hf hb hj, if_neg fun hx => hbc hx.1]
    exact h'.bare b (Finset.mem_of_mem_erase hb) hb0 j hj
  · have hstore := (store64_frame s₃.mem (off (t.addr c) (8 * i)) 0).mono (slot_subset (t.addr c) hi)
    have h₁ := h'.frame.mono (region_mono h.own.le)
    have h₂ := hf.mono (page_subset_region (hown ▸ Pt.addr_mem_own hc₂))
    exact ((h.frame.trans h₁).trans h₂).trans (hstore.mono (page_subset_region (Pt.addr_mem_own hm)))

theorem link_flags (q : Addr) : (PA2PTE q ||| PTE_V) &&& (PTE_R ||| PTE_W ||| PTE_X) = 0 := by
  have hflags := PTE_FLAGS_PA2PTE_or q (f := PTE_V) (by decide)
  have hmask : (PTE_R ||| PTE_W ||| PTE_X) = 0x3ff &&& (PTE_R ||| PTE_W ||| PTE_X) := by decide
  rw [hmask, ← BitVec.and_assoc]
  change PTE_FLAGS (PA2PTE q ||| PTE_V) &&& _ = 0
  rw [hflags]
  decide

theorem freeEntry_invalid {f : Addr → Kmem → Option Kmem} (h : pteAt s.mem p i &&& PTE_V = 0) :
    freeEntry f p i s = some s := by
  change load 64 s.mem (off p (8 * i)) &&& PTE_V = 0 at h
  rw [freeEntry, h]
  rfl

theorem freeEntry_link {f : Addr → Kmem → Option Kmem} {q : Addr} (hq : Aligned q)
    (h : pteAt s.mem p i = PA2PTE q ||| PTE_V) :
    freeEntry f p i s = (f q s).map fun s => ⟨store s.mem (off p (8 * i)) (0 : BitVec 64), s.freelist⟩ := by
  change load 64 s.mem (off p (8 * i)) = _ at h
  rw [freeEntry, h, if_pos ⟨or_PTE_V_valid _, link_flags q⟩, PTE2PA_PA2PTE_or hq (by decide)]
  cases f q s <;> rfl

theorem Pt.Indexed.child_lt (h : t.Indexed) (hlev : c.level ≠ 0) (hc : c.child i ∈ t.dom) : i < 512 := by
  have := h _ hc
  cases c with
  | root => exact this
  | mid k => exact this.2
  | leaf k k' => exact absurd rfl hlev

theorem freewalk_eq (hlevel : c.level = n) (h : Kpt s t) (hidx : t.Indexed) (hb : Table.Bare s.mem t)
    (hpg : ∀ q ∈ t.own, IsPage sym q) (hc : c ∈ t.dom) :
    ∃ s₁ t₁, freewalk sym (n + 1) (t.addr c) s = kfree sym (t.addr c) s₁ ∧ Shed c s t s₁ t₁ ∧
      (c.level ≠ 0 → ∀ j, c.child j ∉ t₁.dom) := by
  induction n generalizing c s t with
  | zero =>
    -- a table of the last level: every entry is passed over
    obtain ⟨s', hrun, rfl⟩ := forLoopM_induct (freeEntry (freewalk sym 0) (t.addr c)) (fun _ s' => s' = s) 0 512 s rfl
      fun i s' _ hi hs => ⟨s', freeEntry_invalid (hs ▸ hb c hc hlevel i (by omega)), hs⟩
    refine ⟨s', t, ?_, Shed.refl h hb c, fun hx => absurd hlevel hx⟩
    rw [freewalk, hrun]
    rfl
  | succ n ih =>
    have hlev : c.level ≠ 0 := by omega
    have hstep : ∀ i s₁, 0 ≤ i → i < 0 + 512 → (∃ t₁, Shed c s t s₁ t₁ ∧ ∀ j < i, c.child j ∉ t₁.dom) →
        ∃ s', freeEntry (freewalk sym (n + 1)) (t.addr c) i s₁ = some s' ∧
          ∃ t', Shed c s t s' t' ∧ ∀ j < i + 1, c.child j ∉ t'.dom := by
      rintro i s₁ _ hi ⟨t₁, hs, hnone⟩
      have hi' : i < 512 := by omega
      have hlink := hs.kpt.table.link c (hs.keeps c hc (Node.not_below_self c)) hlev i hi'
      rw [hs.addr] at hlink
      by_cases hm : c.child i ∈ t₁.dom
      · rw [if_pos hm] at hlink
        have hal := hs.kpt.aligned _ hm
        have hlevel' : (c.child i).level = n := by
          have := Node.child_level hlev i
          omega
        obtain ⟨s₂, t₂, hrun, hs₂, hno⟩ := ih hlevel' hs.kpt (fun b hb => hidx b (hs.dom hb)) hs.bare
          (fun q hq => hpg q (hs.own ▸ hq)) hm
        obtain ⟨s₃, hk, hs₃⟩ := hs.child hlev hi' hc hm hs₂ hno (hpg _ (Pt.addr_mem_own (hs.dom hm)))
        rw [hs₂.addr, hs.addr] at hk
        rw [hs.addr] at hrun hal
        refine ⟨_, ?_, _, hs₃, fun j hj => ?_⟩
        · rw [freeEntry_link hal hlink, hrun, hk]
          rfl
        · rcases Nat.lt_succ_iff_lt_or_eq.mp hj with hj | rfl
          · exact fun hin => hnone j hj (hs₂.dom (Finset.mem_of_mem_erase hin))
          · exact Finset.notMem_erase _ _
      · rw [if_neg hm] at hlink
        refine ⟨s₁, freeEntry_invalid (by rw [hlink]; rfl), t₁, hs, fun j hj => ?_⟩
        rcases Nat.lt_succ_iff_lt_or_eq.mp hj with hj | rfl
        · exact hnone j hj
        · exact hm
    obtain ⟨s', hrun, t', hs, hnone⟩ := forLoopM_induct (freeEntry (freewalk sym (n + 1)) (t.addr c)) _ 0 512 s
      ⟨t, Shed.refl h hb c, fun j hj => absurd hj (Nat.not_lt_zero j)⟩ hstep
    refine ⟨s', t', ?_, hs, fun _ j hj => ?_⟩
    · rw [freewalk, hrun]
      rfl
    · exact hnone j (hidx.child_lt hlev (hs.dom hj)) hj

theorem Known.bare (h : Known sym root s t) (h0 : ∀ v, lookup s.mem t v &&& PTE_V = 0) : Table.Bare s.mem t := by
  intro a ha hlevel i hi
  cases a with
  | root => cases hlevel
  | mid j => cases hlevel
  | leaf j k =>
    have hidx : j < 512 ∧ k < 512 := h.indexed _ ha
    have hleaf : leafOf (j * 2 ^ 18 + k * 2 ^ 9 + i) = .leaf j k := by
      unfold leafOf
      congr 1 <;> omega
    have hv := h0 (j * 2 ^ 18 + k * 2 ^ 9 + i)
    rw [lookup, hleaf, if_pos ha] at hv
    rwa [show (j * 2 ^ 18 + k * 2 ^ 9 + i) % 512 = i by omega] at hv

/-- **`freewalk` of a whole table without leaves** returns every page of it to the free list. -/
theorem Known.freewalk (h : Known sym root s t) (h0 : ∀ v, lookup s.mem t v &&& PTE_V = 0) :
    ∃ s' l, freewalk sym 3 root s = some s' ∧ Pool s'.mem s'.freelist l ∧ l.toFinset = t.own ∧
      Frame (region t.own) s.mem s'.mem := by
  have hroot := h.root
  subst hroot
  have hmem := h.kpt.table.root_mem
  obtain ⟨s₁, t₁, hrun, hs, hno⟩ := freewalk_eq (c := .root) rfl h.kpt h.indexed (h.bare h0) h.isPage hmem
  have hno' : ∀ j, Node.mid j ∉ t₁.dom := hno (by decide)
  have hdom : ∀ b ∈ t₁.dom, b = .root := by
    intro b hb
    cases b with
    | root => rfl
    | mid j => exact absurd hb (hno' j)
    | leaf j k => exact absurd (hs.kpt.table.mid_mem j k hb) (hno' j)
  have hp := h.isPage _ (Pt.addr_mem_own hmem)
  have hmem₁ := hs.kpt.table.root_mem
  obtain ⟨s', hk, _, _, hf⟩ := kfree_spec hp s₁
  have hpool := kfree_pool hp (h.kpt.nonzero _ hmem) hs.kpt.pool (hs.addr ▸ hs.kpt.fresh _ hmem₁) hk
  refine ⟨s', t.addr .root :: t₁.free, hrun.trans hk, hpool, ?_, ?_⟩
  · rw [← hs.own]
    ext q
    rw [List.mem_toFinset, List.mem_cons, Pt.mem_own, hs.addr]
    refine or_congr_left ⟨fun he => ⟨.root, hmem₁, he.symm⟩, ?_⟩
    rintro ⟨b, hb, rfl⟩
    rw [hdom b hb]
  · exact hs.frame.trans (hf.mono (page_subset_region (Pt.addr_mem_own hmem)))

/-! ## The address space of a process -/

/-- The pages of the table, the ones the first `n` entries map, and the free ones. -/
def Pt.pages (s : Kmem) (t : Pt) (n : ℕ) : Finset Addr := t.own ∪ (Finset.range n).image (leafPage s t)

theorem Pt.mem_pages : p ∈ t.pages s n ↔ p ∈ t.own ∨ ∃ v < n, leafPage s t v = p := by
  rw [Pt.pages, Finset.mem_union, Finset.mem_image]
  exact or_congr_right ⟨fun ⟨v, hv, he⟩ => ⟨v, Finset.mem_range.mp hv, he⟩, fun ⟨v, hv, he⟩ =>
    ⟨v, Finset.mem_range.mpr hv, he⟩⟩

theorem Pt.own_subset_pages (s : Kmem) (t : Pt) (n : ℕ) : t.own ⊆ t.pages s n := Finset.subset_union_left

/-- `n` pages of its own, the trap frame, the trampoline and nothing else. -/
structure Image (sym : Symbols) (trapframe root : Addr) (s : Kmem) (t : Pt) (n : ℕ) : Prop
    extends Uspace sym root s t n where
  trampoline : lookup s.mem t (vpn TRAMPOLINE) = PA2PTE sym.trampoline ||| (PTE_R ||| PTE_X) ||| PTE_V
  trapframe : lookup s.mem t (vpn TRAPFRAME) = PA2PTE trapframe ||| (PTE_R ||| PTE_W) ||| PTE_V
  top : ∀ v, 2 ^ 26 ≤ v → lookup s.mem t v &&& PTE_V = 0

theorem isLeaf_of_flags (p : Addr) {f : BitVec 64} (hf : f.toNat < 1024) (hne : f ||| PTE_V ≠ PTE_V) :
    IsLeaf (PA2PTE p ||| f ||| PTE_V) := by
  refine ⟨or_PTE_V_valid _, ?_⟩
  rw [BitVec.or_assoc, PTE_FLAGS_PA2PTE_or p (or_PTE_V_lt hf)]
  exact hne

theorem Kpt.unmap_one (h : Kpt s t) (hsym : sym.Fits) (hva : Aligned va) (hlt : vpn va < 2 ^ 26)
    (hleaf : IsLeaf (lookup s.mem t (vpn va))) :
    ∃ s', Kernel.uvmunmap sym (t.addr .root) va 1 false s = some s' ∧ Step s t s' t ∧
      lookup s'.mem t = update (lookup s.mem t) (vpn va) 0 := by
  have hleaf' : ∀ i < 1, IsLeaf (lookup s.mem t (vpn va + i)) := by
    intro i hi
    rwa [Nat.lt_one_iff.mp hi]
  obtain ⟨s', hrun, hc⟩ := h.uvmunmap hsym (k := 1) hva hlt hleaf'
    (fun hx => absurd hx Bool.false_ne_true) fun hx => absurd hx Bool.false_ne_true
  refine ⟨s', hrun, ⟨id, hc.kpt, rfl, rfl, hc.frame⟩, ?_⟩
  have hmap := hc.map
  rw [← clearRange_succ, clearRange_zero, Nat.add_zero] at hmap
  exact hmap

theorem uvmfree_zero (root : Addr) (s : Kmem) : uvmfree sym root 0 s = freewalk sym 3 root s := by
  rw [uvmfree, if_neg (BitVec.lt_irrefl 0)]
  exact Option.bind_some s (freewalk sym 3 root)

theorem aligned_TRAMPOLINE : Aligned TRAMPOLINE := rfl

theorem aligned_TRAPFRAME : Aligned TRAPFRAME := rfl

section Create
variable {trapframe : Addr} {s₂ s₃ : Kmem} (hc : uvmcreate s = (p, s₁)) (h0 : p ≠ 0)
include hc h0

theorem procPagetable_fail₁
    (h₂ : mappages p TRAMPOLINE (BitVec.ofNat 64 PGSIZE) sym.trampoline (PTE_R ||| PTE_X) s₁ = some (-1, s₂)) :
    procPagetable sym trapframe s = (uvmfree sym p 0 s₂).map fun s => (0, s) := by
  have hlt : (-1 : ℤ) < 0 := by decide
  simp -implicitDefEqProofs only [procPagetable, hc, if_neg h0, h₂, Option.bind_eq_bind, Option.bind_some, if_pos hlt]
  cases uvmfree sym p 0 s₂ <;> rfl

variable (h₂ : mappages p TRAMPOLINE (BitVec.ofNat 64 PGSIZE) sym.trampoline (PTE_R ||| PTE_X) s₁ = some (0, s₂))
include h₂

theorem procPagetable_fail₂
    (h₃ : mappages p TRAPFRAME (BitVec.ofNat 64 PGSIZE) trapframe (PTE_R ||| PTE_W) s₂ = some (-1, s₃)) :
    procPagetable sym trapframe s =
      (uvmunmap sym p TRAMPOLINE 1 false s₃).bind fun s => (uvmfree sym p 0 s).map fun s => (0, s) := by
  have hlt : (-1 : ℤ) < 0 := by decide
  simp -implicitDefEqProofs only [procPagetable, hc, if_neg h0, h₂, h₃, Option.bind_eq_bind, Option.bind_some, if_pos hlt,
    if_neg (lt_irrefl (0 : ℤ))]
  refine congrArg _ (funext fun s => ?_)
  cases uvmfree sym p 0 s <;> rfl

theorem procPagetable_done
    (h₃ : mappages p TRAPFRAME (BitVec.ofNat 64 PGSIZE) trapframe (PTE_R ||| PTE_W) s₂ = some (0, s₃)) :
    procPagetable sym trapframe s = some (p, s₃) := by
  simp -implicitDefEqProofs only [procPagetable, hc, if_neg h0, h₂, h₃, Option.bind_eq_bind, Option.bind_some, if_neg
    (lt_irrefl (0 : ℤ))]

end Create

/-- **`proc_pagetable`** gives all the pages back or returns a table. -/
theorem procPagetable_spec (hsym : sym.Fits) (hpool : Pool s.mem s.freelist l) (hl : ∀ q ∈ l, IsPage sym q)
    (trapframe : Addr) :
    ∃ r s', procPagetable sym trapframe s = some (r, s') ∧ Frame (region l.toFinset) s.mem s'.mem ∧
      ((r = 0 ∧ ∃ l', Pool s'.mem s'.freelist l' ∧ l'.toFinset = l.toFinset) ∨
        (r ≠ 0 ∧ ∃ t, Image sym trapframe r s' t 0 ∧ t.own = l.toFinset)) := by
  cases l with
  | nil =>
    have hcreate : uvmcreate s = (0, s) := by rw [uvmcreate, kalloc_nil hpool, if_pos rfl]
    refine ⟨0, s, ?_, Frame.refl _ _, Or.inl ⟨rfl, [], hpool, rfl⟩⟩
    rw [procPagetable, hcreate, if_pos rfl]
  | cons p l =>
    obtain ⟨_, hp0, _, hf₀⟩ := kalloc_cons hpool
    obtain ⟨s₁, hcreate, hk₁, h0, hf₁, _⟩ := uvmcreate_known hpool hl
    have hown : (Pt.single p l).own = (p :: l).toFinset := by
      ext q
      rw [Pt.mem_single_own, List.mem_toFinset]
    have hpin : p ∈ (p :: l).toFinset := List.mem_toFinset.mpr List.mem_cons_self
    have hframe := (hf₀.trans hf₁).mono (page_subset_region hpin)
    have hzero : lookup s₁.mem (Pt.single p l) = fun _ => 0 := funext h0
    -- a table from which everything was unmapped again
    have hdiscard : ∀ {s₂ : Kmem} {t₂ : Pt}, Known sym p s₂ t₂ → t₂.own = (p :: l).toFinset →
        Frame (region (p :: l).toFinset) s.mem s₂.mem → (∀ v, lookup s₂.mem t₂ v &&& PTE_V = 0) →
        ∃ s', uvmfree sym p 0 s₂ = some s' ∧ Frame (region (p :: l).toFinset) s.mem s'.mem ∧
          ∃ l', Pool s'.mem s'.freelist l' ∧ l'.toFinset = (p :: l).toFinset := by
      intro s₂ t₂ hk₂ hown₂ hf₂ h0₂
      obtain ⟨s', l', hrun, hpool', hl', hf'⟩ := hk₂.freewalk h0₂
      rw [hown₂] at hl' hf'
      exact ⟨s', (uvmfree_zero p s₂).trans hrun, hf₂.trans hf', l', hpool', hl'⟩
    obtain ⟨s₂, t₂, hstep₂, hmap₂⟩ := hk₁.kpt.mappages_one aligned_TRAMPOLINE (by decide) (by rw [h0, zero_and_PTE_V])
      sym.trampoline (PTE_R ||| PTE_X)
    have hk₂ := hk₁.step hstep₂
    have hown₂ : t₂.own = (p :: l).toFinset := hstep₂.own.trans hown
    have hframe₂ : Frame (region (p :: l).toFinset) s.mem s₂.mem := hframe.trans (hown ▸ hstep₂.frame)
    rw [hk₁.root, hzero] at hmap₂
    rcases hmap₂ with ⟨hrun₂, hmap₂⟩ | ⟨hrun₂, hmap₂⟩
    · have hv₂ : ∀ v, v ≠ vpn TRAMPOLINE → lookup s₂.mem t₂ v = 0 := by
        intro v hv
        rw [hmap₂, update_of_ne hv]
      obtain ⟨s₃, t₃, hstep₃, hmap₃⟩ := hk₂.kpt.mappages_one aligned_TRAPFRAME (by decide)
        (by rw [hv₂ _ (by decide), zero_and_PTE_V]) trapframe (PTE_R ||| PTE_W)
      have hk₃ := hk₂.step hstep₃
      have hown₃ : t₃.own = (p :: l).toFinset := hstep₃.own.trans hown₂
      have hframe₃ : Frame (region (p :: l).toFinset) s.mem s₃.mem := hframe₂.trans (hown₂ ▸ hstep₃.frame)
      rw [hk₂.root] at hmap₃
      rcases hmap₃ with ⟨hrun₃, hmap₃⟩ | ⟨hrun₃, hmap₃⟩
      · have hinv : ∀ v, v ≠ vpn TRAPFRAME → v ≠ vpn TRAMPOLINE → lookup s₃.mem t₃ v &&& PTE_V = 0 := by
          intro v hv hv'
          rw [hmap₃, update_of_ne hv, hv₂ v hv', zero_and_PTE_V]
        refine ⟨p, s₃, procPagetable_done hcreate hp0 hrun₂ hrun₃, hframe₃,
          Or.inr ⟨hp0, t₃, ⟨⟨hk₃, ?_, ?_, ?_, ?_, ?_⟩, ?_, ?_, ?_⟩, hown₃⟩⟩
        · exact fun _ hv => absurd hv (Nat.not_lt_zero _)
        · exact fun _ hv => absurd hv (Nat.not_lt_zero _)
        · exact fun _ hv => absurd hv (Nat.not_lt_zero _)
        · exact fun _ hv => absurd hv (Nat.not_lt_zero _)
        · intro v _ hv
          refine hinv v hv.ne ?_
          rw [vpn_TRAPFRAME] at hv
          rw [vpn_TRAMPOLINE]
          omega
        · rw [hmap₃, update_of_ne (by decide), hmap₂, update_self]
        · rw [hmap₃, update_self]
        · intro v hv
          refine hinv v ?_ ?_
          · rw [vpn_TRAPFRAME]
            omega
          · rw [vpn_TRAMPOLINE]
            omega
      · have hleaf : IsLeaf (lookup s₃.mem t₃ (vpn TRAMPOLINE)) := by
          rw [hmap₃, hmap₂, update_self]
          exact isLeaf_of_flags _ (by decide) (by decide)
        obtain ⟨s₄, hrun₄, hstep₄, hmap₄⟩ := hk₃.kpt.unmap_one hsym aligned_TRAMPOLINE (by decide) hleaf
        rw [hk₃.root] at hrun₄
        have h0₄ : ∀ v, lookup s₄.mem t₃ v &&& PTE_V = 0 := by
          intro v
          rw [hmap₄, hmap₃, hmap₂, update_idem, update_apply]
          split <;> exact zero_and_PTE_V
        obtain ⟨s', hrun, hf', hpool'⟩ := hdiscard (hk₃.step hstep₄) hown₃ (hframe₃.trans (hown₃ ▸ hstep₄.frame)) h0₄
        refine ⟨0, s', ?_, hf', Or.inl ⟨rfl, hpool'⟩⟩
        rw [procPagetable_fail₂ hcreate hp0 hrun₂ hrun₃, hrun₄, Option.bind_some, hrun, Option.map_some]
    · obtain ⟨s', hrun, hf', hpool'⟩ := hdiscard hk₂ hown₂ hframe₂ fun v =>
        (congrArg (· &&& PTE_V) (congrFun hmap₂ v)).trans zero_and_PTE_V
      refine ⟨0, s', ?_, hf', Or.inl ⟨rfl, hpool'⟩⟩
      rw [procPagetable_fail₁ hcreate hp0 hrun₂, hrun, Option.map_some]

/-! ## With enough free pages -/

theorem Covers.mono {S S' : Finset Node} (h : Covers S v n) (hS : S ⊆ S') : Covers S' v n := fun x hx hx' =>
  ⟨hS (h x hx hx').1, hS (h x hx hx').2⟩

def topNodes : Finset Node := {.root, .mid 255, .leaf 255 511}

theorem topNodes_cover (hv : vpn TRAPFRAME ≤ v) (hn : v + n ≤ 2 ^ 26) : Covers topNodes v n := by
  intro x hx hx'
  rw [vpn_TRAPFRAME] at hv
  have hm : midOf x = .mid 255 := by rw [midOf, show x / 2 ^ 18 = 255 by omega]
  have hl : leafOf x = .leaf 255 511 := by rw [leafOf, show x / 2 ^ 18 = 255 by omega, show x / 2 ^ 9 % 512 = 511 by omega]
  rw [hm, hl]
  exact ⟨by decide, by decide⟩

section Enough
variable {S : Finset Node} {f : ℕ → BitVec 64}

theorem procPagetable_enough (hpool : Pool s.mem s.freelist (p :: l)) (hl : ∀ q ∈ p :: l, IsPage sym q)
    (hS : topNodes ⊆ S) (hroom : S.card + k ≤ l.length + 1) (trapframe : Addr) :
    ∃ s' t f, procPagetable sym trapframe s = some (p, s') ∧ Space S k p f s' t ∧ Unmapped f 0 (vpn TRAPFRAME) := by
  obtain ⟨_, hp0, _, _⟩ := kalloc_cons hpool
  obtain ⟨s₁, hcreate, hknown, hz, _, _⟩ := uvmcreate_known hpool hl
  have hspace : Space S k p (fun _ => 0) s₁ (Pt.single p l) := single_space hknown hz (hS (by decide)) hroom
  obtain ⟨s₂, t₂, hrun₂, hs₂, _⟩ := hspace.kvmmap TRAMPOLINE sym.trampoline (BitVec.ofNat 64 PGSIZE) (PTE_R ||| PTE_X)
    aligned_TRAMPOLINE (n := 1) rfl Nat.one_pos (by decide) ((topNodes_cover (by decide) (by decide)).mono hS)
    fun _ _ _ => rfl
  obtain ⟨s₃, t₃, hrun₃, hs₃, _⟩ := hs₂.kvmmap TRAPFRAME trapframe (BitVec.ofNat 64 PGSIZE) (PTE_R ||| PTE_W)
    aligned_TRAPFRAME (n := 1) rfl Nat.one_pos (by decide) ((topNodes_cover (by decide) (by decide)).mono hS)
    (Unmapped.mapRange (fun _ _ _ => rfl) (by decide))
  refine ⟨s₃, t₃, _, procPagetable_done hcreate hp0 (mappages_of_kvmmap hrun₂) (mappages_of_kvmmap hrun₃), hs₃, ?_⟩
  exact .mapRange (.mapRange (fun _ _ _ => rfl) (by decide)) (by decide)

theorem Space.take (h : Space S (k + 1) root f s t) :
    (kalloc s).1 ≠ 0 ∧ ∀ m, Frame (page (kalloc s).1) (kalloc s).2.mem m →
      ∃ t', Space S k root f ⟨m, (kalloc s).2.freelist⟩ t' := by
  obtain ⟨p, l, hfree, hk, h0, hroom⟩ := h.exists_page
  rw [hk]
  refine ⟨h0, fun m hm => ⟨{ t with free := l }, ?_⟩⟩
  obtain ⟨hkpt, hmap, -⟩ := h.kpt.take hfree hm
  exact ⟨hkpt, h.root_addr, h.bound, hroom, fun v => (congrFun hmap v).trans (h.map v)⟩

/-- `n` pages from `a` on, by induction on `n`. -/
theorem Space.uvmallocLoop {a : Addr} {newsz : BitVec 64} {fuel : ℕ} (h : Space S (k + n) root f s t) (hal : Aligned a)
    (hend : newsz.toNat = a.toNat + 4096 * n) (hmax : newsz.toNat ≤ 2 ^ 38) (hS : Covers S (vpn a) n)
    (h0 : Unmapped f (vpn a) n) (hfuel : n < fuel) (base : Addr) (xperm : BitVec 64) :
    ∃ s', Kernel.uvmallocLoop sym root base newsz xperm fuel a s = some (newsz, s') := by
  obtain ⟨fuel, rfl⟩ : ∃ m, fuel = m + 1 := ⟨fuel - 1, by omega⟩
  induction n generalizing fuel a s t f with
  | zero =>
    rw [Kernel.uvmallocLoop, if_neg (by rw [BitVec.lt_def]; omega)]
    exact ⟨s, rfl⟩
  | succ n ih =>
    have hnext : (off a PGSIZE).toNat = a.toNat + 4096 := off_toNat _ _ (by unfold PGSIZE; omega)
    have hvpn : vpn (off a PGSIZE) = vpn a + 1 := by
      unfold vpn
      omega
    have hal' : a.toNat % 4096 = 0 := hal
    obtain ⟨hne, htake⟩ := h.take
    obtain ⟨t₁, h₁⟩ := htake _ (memset_page_frame _ _ 0)
    obtain ⟨s₂, t₂, hrun, h₂, -⟩ := h₁.kvmmap a (kalloc s).1 (BitVec.ofNat 64 PGSIZE) (PTE_R ||| PTE_U ||| xperm) hal
      (n := 1) rfl Nat.one_pos (by unfold PGSIZE; omega) (fun x hx hx' => hS x hx (by omega))
      fun x hx hx' => h0 x hx (by omega)
    obtain ⟨fuel, rfl⟩ : ∃ m, fuel = m + 1 := ⟨fuel - 1, by omega⟩
    rw [Kernel.uvmallocLoop, if_pos (by rw [BitVec.lt_def]; omega)]
    simp only [if_neg hne, mappages_of_kvmmap hrun, Option.bind_eq_bind, Option.bind_some, ne_eq, not_true_eq_false,
      if_false]
    refine ih h₂ ?_ (by omega) ?_ ?_ fuel (by omega)
    · change _ % 4096 = 0
      omega
    · exact fun x hx hx' => hS x (by omega) (by omega)
    · intro x hx hx'
      rw [mapRange_of_not_mem (by omega)]
      exact h0 x (by omega) (by omega)

end Enough

end Xv6Boot.Kernel
