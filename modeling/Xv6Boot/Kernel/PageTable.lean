import Xv6Boot.Kernel.Vm

/-! # The page table as a map

A three-level table in memory is described by its nodes: which of them exist, and on which page each one
lies (`Table`). Distinct nodes lie on distinct pages, so a write to one entry changes one entry. The
abstract object is the map from virtual page numbers to leaf entries (`lookup`); `walk` with `alloc` set
extends the tree and leaves the map alone, and storing through its result changes the map at one page.
-/

namespace Xv6Boot.Kernel
open ByteMemory Loop StringC Pages

/-! ## Entries -/

theorem PX_eq (level : ℕ) (va : Addr) : PX level va = va.toNat / 2 ^ (12 + 9 * level) % 512 := by
  rw [PX, BitVec.toNat_and, BitVec.toNat_ushiftRight, Nat.shiftRight_eq_div_pow]
  exact Nat.and_two_pow_sub_one_eq_mod _ 9

theorem PX_lt (level : ℕ) (va : Addr) : PX level va < 512 := by
  rw [PX_eq]
  exact Nat.mod_lt _ (by norm_num)

theorem PA2PTE_toNat (p : Addr) : (PA2PTE p).toNat = p.toNat / 4096 * 1024 := by
  have := p.isLt
  rw [PA2PTE, BitVec.toNat_shiftLeft, BitVec.toNat_ushiftRight, Nat.shiftRight_eq_div_pow, Nat.shiftLeft_eq]
  omega

theorem PA2PTE_or_toNat (p : Addr) {f : BitVec 64} (hf : f.toNat < 1024) :
    (PA2PTE p ||| f).toNat = p.toNat / 4096 * 1024 + f.toNat := by
  have hs : p.toNat / 4096 * 1024 = (p.toNat / 4096) <<< 10 := (Nat.shiftLeft_eq _ 10).symm
  rw [BitVec.toNat_or, PA2PTE_toNat, hs, Nat.shiftLeft_add_eq_or_of_lt hf]

variable {l : List Addr} {p : Addr} {s : Kmem}

theorem PTE2PA_PA2PTE_or (ha : Aligned p) {f : BitVec 64} (hf : f.toNat < 1024) :
    PTE2PA (PA2PTE p ||| f) = p := by
  apply BitVec.eq_of_toNat_eq
  have := p.isLt
  unfold Aligned pageBytes at ha
  rw [PTE2PA, BitVec.toNat_shiftLeft, BitVec.toNat_ushiftRight, PA2PTE_or_toNat p hf,
    Nat.shiftRight_eq_div_pow, Nat.shiftLeft_eq]
  omega

theorem or_PTE_V_valid (x : BitVec 64) : (x ||| PTE_V) &&& PTE_V ≠ 0 := by
  intro h
  have h0 := congrArg (fun y : BitVec 64 => y.getLsbD 0) h
  simp [PTE_V] at h0

theorem zero_invalid : ¬ ((0 : BitVec 64) &&& PTE_V ≠ 0) := by decide

def pteAt (m : Mem) (p : Addr) (i : ℕ) : BitVec 64 := load 64 m (off p (8 * i))

theorem slot_subset (p : Addr) {i : ℕ} (hi : i < 512) : span (off p (8 * i)) 8 ⊆ page p :=
  word_subset_page p (by unfold pageBytes; omega)

theorem pteAt_frame {m m' : Mem} {s : Set Addr} (hf : Frame s m m') (hd : Disjoint (page p) s)
    {i : ℕ} (hi : i < 512) : pteAt m' p i = pteAt m p i :=
  hf.load_eq (hd.mono_left (slot_subset p hi)) (by norm_num)

/-! ## Nodes -/

inductive Node where
  | root
  | mid (i : ℕ)
  | leaf (i j : ℕ)
  deriving DecidableEq

def Node.child : Node → ℕ → Node
  | .root, i => .mid i
  | .mid i, j => .leaf i j
  | .leaf i j, _ => .leaf i j

def Node.level : Node → ℕ
  | .root => 2
  | .mid _ => 1
  | .leaf _ _ => 0

variable {a b c : Node} {j : ℕ} {va : Addr}

theorem Node.child_injective (ha : a.level ≠ 0) (hb : b.level ≠ 0) {i : ℕ} (h : a.child i = b.child j) :
    a = b ∧ i = j := by
  cases a <;> cases b <;> simp_all [Node.child, Node.level]

theorem Node.child_ne_self (ha : a.level ≠ 0) (i : ℕ) : a.child i ≠ a := by
  cases a <;> simp_all [Node.child, Node.level]

theorem Node.child_ne_root (i : ℕ) : a.child i ≠ .root := by
  cases a <;> simp [Node.child]

theorem Node.eq_mid_of_child (ha : a.level ≠ 0) {i k : ℕ} (h : a.child k = .leaf i j) : a = .mid i := by
  cases a <;> simp_all [Node.child, Node.level]

def leafOf (v : ℕ) : Node := .leaf (v / 2 ^ 18) (v / 2 ^ 9 % 512)

def midOf (v : ℕ) : Node := .mid (v / 2 ^ 18)

theorem leafOf_eq (v : ℕ) : leafOf v = (midOf v).child (v / 2 ^ 9 % 512) := rfl

theorem page_of_leaf {v w : ℕ} (h : leafOf v = leafOf w) (hi : v % 512 = w % 512) : v = w := by
  injection h with h1 h2
  omega

/-- Where the tables of a tree are, and which pages are free. -/
structure Pt where
  dom : Finset Node
  addr : Node → Addr
  free : List Addr

/-- The entries of the non-leaf tables spell out the tree. -/
structure Table (m : Mem) (t : Pt) : Prop where
  root_mem : .root ∈ t.dom
  mid_mem : ∀ i j, .leaf i j ∈ t.dom → .mid i ∈ t.dom
  link : ∀ a ∈ t.dom, a.level ≠ 0 → ∀ i < 512, pteAt m (t.addr a) i =
    if a.child i ∈ t.dom then PA2PTE (t.addr (a.child i)) ||| PTE_V else 0

/-- A kernel memory with a page table: tree, free list, and their pages all apart. -/
structure Kpt (s : Kmem) (t : Pt) : Prop where
  table : Table s.mem t
  pool : Pool s.mem s.freelist t.free
  low : ∀ p ∈ t.free, p.toNat < 2 ^ 56
  addr_low : ∀ a ∈ t.dom, (t.addr a).toNat < 2 ^ 56
  aligned : ∀ a ∈ t.dom, Aligned (t.addr a)
  nonzero : ∀ a ∈ t.dom, t.addr a ≠ 0
  fresh : ∀ a ∈ t.dom, t.addr a ∉ t.free
  inj : ∀ a ∈ t.dom, ∀ b ∈ t.dom, t.addr a = t.addr b → a = b

def lookup (m : Mem) (t : Pt) (v : ℕ) : BitVec 64 :=
  if leafOf v ∈ t.dom then pteAt m (t.addr (leafOf v)) (v % 512) else 0

variable {t : Pt}

theorem Kpt.page_disjoint (h : Kpt s t) (ha : a ∈ t.dom) (hb : b ∈ t.dom) (hne : a ≠ b) :
    Disjoint (page (t.addr a)) (page (t.addr b)) :=
  Pages.page_disjoint (h.aligned a ha) (h.aligned b hb) fun he => hne (h.inj a ha b hb he)

/-! ## One level of `walk` -/

theorem walkLevel_found (h : Kpt s t) (ha : a ∈ t.dom) (hlev : a.level ≠ 0)
    (alloc : Bool) {level : ℕ} (hc : a.child (PX level va) ∈ t.dom) :
    walkLevel alloc va level (t.addr a) s = (some (t.addr (a.child (PX level va))), s) := by
  have hl := h.table.link a ha hlev _ (PX_lt level va)
  rw [if_pos hc, pteAt] at hl
  unfold walkLevel
  dsimp only
  rw [hl, if_pos (or_PTE_V_valid _),
    PTE2PA_PA2PTE_or (h.aligned _ hc) (by decide)]

theorem walkLevel_missing (h : Kpt s t) (ha : a ∈ t.dom) (hlev : a.level ≠ 0)
    {level : ℕ} (hc : a.child (PX level va) ∉ t.dom) : walkLevel false va level (t.addr a) s = (none, s) := by
  have hl := h.table.link a ha hlev _ (PX_lt level va)
  rw [if_neg hc, pteAt] at hl
  unfold walkLevel
  dsimp only
  rw [hl, if_neg zero_invalid]
  rfl

/-- The tree with a new table `c` on page `p`, taken from the free list. -/
def Pt.extend (t : Pt) (c : Node) (p : Addr) (l : List Addr) : Pt :=
  ⟨insert c t.dom, Function.update t.addr c p, l⟩

theorem Pt.mem_extend :
    b ∈ (t.extend c p l).dom ↔ b = c ∨ b ∈ t.dom := Finset.mem_insert

theorem Pt.extend_addr_self (t : Pt) (c : Node) (p : Addr) (l : List Addr) : (t.extend c p l).addr c = p := by
  simp [Pt.extend]

theorem Pt.extend_addr_ne (t : Pt) (hne : b ≠ c) (p : Addr) (l : List Addr) : (t.extend c p l).addr b = t.addr b := by
  simp [Pt.extend, hne]

theorem Pt.extend_addr_mem (hc : c ∉ t.dom) (hb : b ∈ t.dom) (p : Addr) (l : List Addr) :
    (t.extend c p l).addr b = t.addr b :=
  t.extend_addr_ne (ne_of_mem_of_not_mem hb hc) p l

theorem walkLevel_alloc_eq (h : Kpt s t) (ha : a ∈ t.dom) (hlev : a.level ≠ 0)
    {level : ℕ} (hc : a.child (PX level va) ∉ t.dom) (hfree : t.free = p :: l) :
    walkLevel true va level (t.addr a) s = (some p,
      ⟨store (memset (kalloc s).2.mem p 0 PGSIZE) (off (t.addr a) (8 * PX level va)) (PA2PTE p ||| PTE_V),
        (kalloc s).2.freelist⟩) := by
  have hl := h.table.link a ha hlev _ (PX_lt level va)
  rw [if_neg hc, pteAt] at hl
  have hpool := h.pool
  rw [hfree] at hpool
  obtain ⟨hk, h0, -, -⟩ := kalloc_cons hpool
  unfold walkLevel
  dsimp only
  rw [hl, if_neg zero_invalid, hk, if_neg h0]
  rfl

theorem memset_zero_pteAt (m : Mem) (p : Addr) {i : ℕ} (hi : i < 512) : pteAt (memset m p 0 PGSIZE) p i = 0 := by
  rw [memset_eq_put m p 0 (by decide), pteAt, load]
  have hz : ∀ k < 8, put m p PGSIZE (fun _ => 0) (off (off p (8 * i)) k) = leByte 0 k := by
    intro k hk
    rw [off_off, put_off m p _ (by unfold PGSIZE; omega) (by omega), leByte, Nat.zero_div]
    rfl
  rw [leNat_congr (n := 8) hz, leNat_leByte]
  rfl

theorem pteAt_store {m : Mem} {p q : Addr} (hp : Aligned p) (hq : Aligned q) {i : ℕ} (hi : i < 512) (hj : j < 512)
    (v : BitVec 64) : pteAt (store m (off p (8 * i)) v) q j = if q = p ∧ j = i then v else pteAt m q j := by
  have hf := store64_frame m (off p (8 * i)) v
  by_cases hpq : q = p
  · subst hpq
    by_cases hij : j = i
    · subst hij
      rw [if_pos ⟨rfl, rfl⟩]
      exact load_store64 m _ v
    · rw [if_neg fun h => hij h.2]
      exact hf.load_off (by omega) (by omega) (by omega)
  · rw [if_neg fun h => hpq h.1]
    exact pteAt_frame (hf.mono (slot_subset p hi)) (Pages.page_disjoint hq hp hpq) hj

theorem Pt.head_mem (hfree : t.free = p :: l) : p ∈ t.free := by
  rw [hfree]
  exact List.mem_cons_self

section Alloc
variable (h : Kpt s t) (hfree : t.free = p :: l)
include h hfree

theorem Kpt.addr_ne_head (hb : b ∈ t.dom) : t.addr b ≠ p :=
  fun he => h.fresh b hb (he ▸ Pt.head_mem hfree)

theorem Kpt.notMem_tail (hb : b ∈ t.dom) : t.addr b ∉ l := by
  intro hm
  apply h.fresh b hb
  rw [hfree]
  exact List.mem_cons_of_mem _ hm

theorem Kpt.head_notMem_tail : p ∉ l := by
  have hn := h.pool.nodup
  rw [hfree] at hn
  exact (List.nodup_cons.mp hn).1

theorem Kpt.head_ne_zero : p ≠ 0 := by
  have hc := h.pool.chain
  rw [hfree] at hc
  exact hc.2.1

theorem pteAt_linked {a : Node} (ha : a ∈ t.dom) {i : ℕ} (hi : i < 512) {m' : Mem}
    (hm' : m' = store (memset (kalloc s).2.mem p 0 PGSIZE) (off (t.addr a) (8 * i)) (PA2PTE p ||| PTE_V)) :
    (∀ b ∈ t.dom, ∀ j < 512, pteAt m' (t.addr b) j =
      if b = a ∧ j = i then PA2PTE p ||| PTE_V else pteAt s.mem (t.addr b) j) ∧
    ∀ j < 512, pteAt m' p j = 0 := by
  have hpool := h.pool
  rw [hfree] at hpool
  obtain ⟨-, -, -, hf⟩ := kalloc_cons hpool
  have hp : Aligned p := h.pool.aligned p (Pt.head_mem hfree)
  constructor
  · intro b hb j hj
    rw [hm', pteAt_store (h.aligned a ha) (h.aligned b hb) hi hj]
    by_cases hc : b = a ∧ j = i
    · rw [if_pos hc, if_pos ⟨congrArg t.addr hc.1, hc.2⟩]
    · rw [if_neg hc, if_neg fun hx => hc ⟨h.inj b hb a ha hx.1, hx.2⟩]
      have hd := Pages.page_disjoint (h.aligned b hb) hp (h.addr_ne_head hfree hb)
      rw [pteAt_frame (memset_page_frame _ p 0) hd hj, pteAt_frame hf hd hj]
  · intro j hj
    rw [hm', pteAt_store (h.aligned a ha) hp hi hj, if_neg fun hx => h.addr_ne_head hfree ha hx.1.symm]
    exact memset_zero_pteAt _ p hj

section Extend
variable (ha : a ∈ t.dom) (hlev : a.level ≠ 0) {i : ℕ} (hc : a.child i ∉ t.dom) {s' : Kmem}
  (hold : ∀ b ∈ t.dom, ∀ j < 512, pteAt s'.mem (t.addr b) j =
    if b = a ∧ j = i then PA2PTE p ||| PTE_V else pteAt s.mem (t.addr b) j)
  (hnew : ∀ j < 512, pteAt s'.mem p j = 0)
include ha hlev hc hold hnew

omit hfree in
theorem Table.extend : Table s'.mem (t.extend (a.child i) p l) where
  root_mem := Pt.mem_extend.mpr (.inr h.table.root_mem)
  mid_mem := by
    intro i' j' hm
    rcases Pt.mem_extend.mp hm with he | hm
    · rw [← Node.eq_mid_of_child hlev he.symm]
      exact Pt.mem_extend.mpr (.inr ha)
    · exact Pt.mem_extend.mpr (.inr (h.table.mid_mem i' j' hm))
  link := by
    intro b hb hblev j hj
    rcases Pt.mem_extend.mp hb with rfl | hb
    · -- The new table has no children yet.
      have hno : (a.child i).child j ∉ (t.extend (a.child i) p l).dom := by
        intro hm
        rcases Pt.mem_extend.mp hm with he | hm
        · exact Node.child_ne_self hblev j he
        · generalize a.child i = c at *
          cases c with
          | root => exact hc h.table.root_mem
          | mid i' => exact hc (h.table.mid_mem i' j hm)
          | leaf i' j' => exact hblev rfl
      rw [if_neg hno, Pt.extend_addr_self]
      exact hnew j hj
    · rw [Pt.extend_addr_mem hc hb, hold b hb j hj]
      by_cases hx : b = a ∧ j = i
      · obtain ⟨rfl, rfl⟩ := hx
        rw [if_pos ⟨rfl, rfl⟩, if_pos (Pt.mem_extend.mpr (.inl rfl)), Pt.extend_addr_self]
      · have hne : b.child j ≠ a.child i := fun he => hx (Node.child_injective hblev hlev he)
        rw [if_neg hx, h.table.link b hb hblev j hj, Pt.extend_addr_ne t hne]
        simp only [Pt.mem_extend, hne, false_or]

theorem Kpt.extend (hpool : Pool s'.mem s'.freelist l) : Kpt s' (t.extend (a.child i) p l) where
  table := Table.extend h ha hlev hc hold hnew
  pool := hpool
  low := by
    intro q hq
    apply h.low
    rw [hfree]
    exact List.mem_cons_of_mem _ hq
  addr_low := by
    intro b hb
    rcases Pt.mem_extend.mp hb with rfl | hb
    · rw [Pt.extend_addr_self]
      exact h.low p (Pt.head_mem hfree)
    · rw [Pt.extend_addr_mem hc hb]
      exact h.addr_low b hb
  aligned := by
    intro b hb
    rcases Pt.mem_extend.mp hb with rfl | hb
    · rw [Pt.extend_addr_self]
      exact h.pool.aligned p (Pt.head_mem hfree)
    · rw [Pt.extend_addr_mem hc hb]
      exact h.aligned b hb
  nonzero := by
    intro b hb
    rcases Pt.mem_extend.mp hb with rfl | hb
    · rw [Pt.extend_addr_self]
      exact h.head_ne_zero hfree
    · rw [Pt.extend_addr_mem hc hb]
      exact h.nonzero b hb
  fresh := by
    intro b hb
    rcases Pt.mem_extend.mp hb with rfl | hb
    · rw [Pt.extend_addr_self]
      exact h.head_notMem_tail hfree
    · rw [Pt.extend_addr_mem hc hb]
      exact h.notMem_tail hfree hb
  inj := by
    intro b hb b' hb' he
    rcases Pt.mem_extend.mp hb with rfl | hb
    · rcases Pt.mem_extend.mp hb' with rfl | hb'
      · rfl
      · rw [Pt.extend_addr_self, Pt.extend_addr_mem hc hb'] at he
        exact absurd he.symm (h.addr_ne_head hfree hb')
    · rcases Pt.mem_extend.mp hb' with rfl | hb'
      · rw [Pt.extend_addr_self, Pt.extend_addr_mem hc hb] at he
        exact absurd he (h.addr_ne_head hfree hb)
      · rw [Pt.extend_addr_mem hc hb, Pt.extend_addr_mem hc hb'] at he
        exact h.inj b hb b' hb' he

omit h hfree ha in
theorem lookup_extend (v : ℕ) : lookup s'.mem (t.extend (a.child i) p l) v = lookup s.mem t v := by
  have hv : v % 512 < 512 := Nat.mod_lt _ (by norm_num)
  unfold lookup
  by_cases hm : leafOf v ∈ t.dom
  · have hne : ¬ (leafOf v = a ∧ v % 512 = i) := by
      rintro ⟨rfl, -⟩
      exact hlev rfl
    rw [if_pos (Pt.mem_extend.mpr (.inr hm)), if_pos hm, Pt.extend_addr_mem hc hm,
      hold _ hm _ hv, if_neg hne]
  · rw [if_neg hm]
    by_cases hc' : leafOf v = a.child i
    · rw [if_pos (Pt.mem_extend.mpr (.inl hc')), hc', Pt.extend_addr_self]
      exact hnew _ hv
    · rw [if_neg fun hx => (Pt.mem_extend.mp hx).elim hc' hm]

end Extend

theorem walkLevel_alloc {a : Node} (ha : a ∈ t.dom) (hlev : a.level ≠ 0) {level : ℕ}
    (hc : a.child (PX level va) ∉ t.dom) :
    ∃ s', walkLevel true va level (t.addr a) s = (some p, s') ∧
      Kpt s' (t.extend (a.child (PX level va)) p l) ∧
      (∀ v, lookup s'.mem (t.extend (a.child (PX level va)) p l) v = lookup s.mem t v) ∧
      Frame (page p ∪ page (t.addr a)) s.mem s'.mem := by
  have hpool := h.pool
  rw [hfree] at hpool
  obtain ⟨-, -, hpool', hf0⟩ := kalloc_cons hpool
  have hp : Aligned p := h.pool.aligned p (Pt.head_mem hfree)
  have hw := walkLevel_alloc_eq h ha hlev hc hfree
  obtain ⟨m', hm'⟩ : ∃ m', m' = store (memset (kalloc s).2.mem p 0 PGSIZE)
    (off (t.addr a) (8 * PX level va)) (PA2PTE p ||| PTE_V) := ⟨_, rfl⟩
  obtain ⟨hold, hnew⟩ := pteAt_linked h hfree ha (PX_lt level va) hm'
  have hpool1 := hpool'.frame_page hp (h.head_notMem_tail hfree) (memset_page_frame _ p 0)
  have hf : Frame (page (t.addr a)) (memset (kalloc s).2.mem p 0 PGSIZE) m' := by
    rw [hm']
    exact (store64_frame _ _ _).mono (slot_subset _ (PX_lt level va))
  have hpool2 := hpool1.frame_page (h.aligned a ha) (h.notMem_tail hfree ha) hf
  rw [← hm'] at hw
  exact ⟨_, hw, Kpt.extend h hfree ha hlev hc hold hnew hpool2, lookup_extend hlev hc hold hnew,
    (hf0.trans (memset_page_frame _ p 0)).trans_union hf⟩

end Alloc

/-! ## A table under changes elsewhere -/

theorem Kpt.transfer {s s' : Kmem} (h : Kpt s t) {X : Set Addr}
    (hf : Frame X s.mem s'.mem) (hd : ∀ a ∈ t.dom, Disjoint (page (t.addr a)) X)
    (hpool : Pool s'.mem s'.freelist l) (hlow : ∀ p ∈ l, p.toNat < 2 ^ 56) (hfresh : ∀ a ∈ t.dom, t.addr a ∉ l) :
    Kpt s' { t with free := l } ∧ ∀ v, lookup s'.mem { t with free := l } v = lookup s.mem t v := by
  have hkeep : ∀ a ∈ t.dom, ∀ i < 512, pteAt s'.mem (t.addr a) i = pteAt s.mem (t.addr a) i :=
    fun a ha i hi => pteAt_frame hf (hd a ha) hi
  refine ⟨⟨⟨h.table.root_mem, h.table.mid_mem, ?_⟩, hpool, hlow, h.addr_low, h.aligned, h.nonzero, hfresh, h.inj⟩, ?_⟩
  · intro a ha hlev i hi
    rw [hkeep a ha i hi]
    exact h.table.link a ha hlev i hi
  · intro v
    unfold lookup
    by_cases hm : leafOf v ∈ t.dom
    · rw [if_pos hm, if_pos hm, hkeep _ hm _ (Nat.mod_lt _ (by norm_num))]
    · rw [if_neg hm, if_neg hm]

theorem Kpt.kalloc (h : Kpt s t) (hfree : t.free = p :: l) :
    Kpt (kalloc s).2 { t with free := l } ∧
      ∀ v, lookup (Kernel.kalloc s).2.mem { t with free := l } v = lookup s.mem t v := by
  have hpool := h.pool
  rw [hfree] at hpool
  obtain ⟨-, -, hpool', hf⟩ := kalloc_cons hpool
  have hp := hpool.aligned p List.mem_cons_self
  refine h.transfer hf (fun a ha => Pages.page_disjoint (h.aligned a ha) hp (h.addr_ne_head hfree ha)) hpool' ?_
    fun a ha => h.notMem_tail hfree ha
  intro q hq
  apply h.low
  rw [hfree]
  exact List.mem_cons_of_mem _ hq

theorem Kpt.new (hpool : Pool s.mem s.freelist (p :: l))
    (hlow : ∀ q ∈ p :: l, q.toNat < 2 ^ 56) :
    Kpt ⟨memset (Kernel.kalloc s).2.mem p 0 PGSIZE, (Kernel.kalloc s).2.freelist⟩ ⟨{.root}, fun _ => p, l⟩ ∧
      ∀ v, lookup (memset (Kernel.kalloc s).2.mem p 0 PGSIZE) ⟨{.root}, fun _ => p, l⟩ v = 0 := by
  obtain ⟨-, h0, hpool', -⟩ := kalloc_cons hpool
  have hp := hpool.aligned p List.mem_cons_self
  have hnew := (List.nodup_cons.mp hpool.nodup).1
  have hone : ∀ a ∈ ({.root} : Finset Node), a = .root := fun a => Finset.mem_singleton.mp
  have hpool1 := hpool'.frame_page hp hnew (memset_page_frame _ p 0)
  have hzero : ∀ i < 512, pteAt (memset (Kernel.kalloc s).2.mem p 0 PGSIZE) p i = 0 :=
    fun i hi => memset_zero_pteAt _ p hi
  generalize memset (Kernel.kalloc s).2.mem p 0 PGSIZE = m' at hpool1 hzero ⊢
  refine ⟨⟨⟨Finset.mem_singleton_self _, ?_, ?_⟩, hpool1, ?_, ?_, fun _ _ => hp, fun _ _ => h0, fun _ _ => hnew, ?_⟩, ?_⟩
  · intro i j hm
    exact absurd (hone _ hm) (by simp)
  · intro a ha hlev i hi
    obtain rfl := hone a ha
    rw [if_neg fun hm => Node.child_ne_root i (hone _ hm)]
    exact hzero i hi
  · exact fun q hq => hlow q (List.mem_cons_of_mem _ hq)
  · exact fun _ _ => hlow p List.mem_cons_self
  · exact fun a ha b hb _ => (hone a ha).trans (hone b hb).symm
  · intro v
    rw [lookup, if_neg fun hm => absurd (hone _ hm) (by simp [leafOf])]

end Xv6Boot.Kernel
