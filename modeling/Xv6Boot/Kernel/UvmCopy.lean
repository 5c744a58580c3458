import Xv6Boot.Kernel.UserSpace

/-! # `uvmcopy`: the memory of a child

`fork` gives the child a copy of every page of the parent, with the parent's flags, on pages of its own. What is written
through one of the two tables afterwards is not seen through the other.
-/

namespace Xv6Boot.Kernel
open Function ByteMemory Loop StringC Pages

variable {sym : Symbols} {s s₁ s' : Kmem} {t t₁ t' tp : Pt} {root old new p va : Addr} {l : List Addr} {v k n : ℕ}
  {sz : BitVec 64}

/-! ## Addresses through a table -/

def translate (root va : Addr) (s : Kmem) : Option Addr :=
  if entry root va s &&& PTE_V ≠ 0 then some (off (PTE2PA (entry root va s)) (va.toNat % PGSIZE)) else none

def readVia (root va : Addr) (s : Kmem) : Option Byte := (translate root va s).map s.mem

def writeVia (root va : Addr) (x : Byte) (s : Kmem) : Kmem :=
  (translate root va s).elim s fun pa => ⟨update s.mem pa x, s.freelist⟩

theorem PTE2PA_aligned (pte : BitVec 64) : Aligned (PTE2PA pte) := by
  change (PTE2PA pte).toNat % 4096 = 0
  rw [PTE2PA, BitVec.toNat_shiftLeft, Nat.shiftLeft_eq]
  omega

theorem Kpt.translate (h : Kpt s t) (hva : vpn va < 2 ^ 26) (hleaf : IsLeaf (lookup s.mem t (vpn va))) :
    translate (t.addr .root) va s = some (off (leafPage s t (vpn va)) (va.toNat % PGSIZE)) := by
  have he := h.entry_eq (lt_MAXVA_iff.mpr hva)
  rw [Kernel.translate, he, if_pos hleaf.1]
  rfl

theorem offset_lt (va : Addr) : va.toNat % PGSIZE < PGSIZE := Nat.mod_lt _ (by decide)

theorem off_mem_page (p va : Addr) : off p (va.toNat % PGSIZE) ∈ page p :=
  off_mem_span p (offset_lt va) (lt_trans (offset_lt va) (by decide))

theorem update_frame (m : Mem) (p va : Addr) (x : Byte) :
    Frame (page p) m (update m (off p (va.toNat % PGSIZE)) x) := by
  intro y hy
  have hne : y ≠ off p (va.toNat % PGSIZE) := by
    rintro rfl
    exact hy (off_mem_page p va)
  exact update_of_ne hne _ _

/-! ## Two tables -/

/-- The first `n` pages of the table are not pages of the two tables, and not free. -/
structure Alone (s : Kmem) (t t' : Pt) (n : ℕ) : Prop where
  kpt : Kpt s t
  leaf : ∀ v < n, IsLeaf (lookup s.mem t v)
  not_own : ∀ v < n, leafPage s t v ∉ t.own
  not_own' : ∀ v < n, leafPage s t v ∉ t'.own

structure Apart (s : Kmem) (t t' : Pt) (n : ℕ) : Prop where
  left : Alone s t t' n
  right : Alone s t' t n
  ne : ∀ v < n, ∀ w < n, leafPage s t v ≠ leafPage s t' w
  le : n ≤ 2 ^ 26

theorem Apart.symm (h : Apart s t t' n) : Apart s t' t n :=
  ⟨h.right, h.left, fun v hv w hw he => h.ne w hw v hv he.symm, h.le⟩

theorem Kpt.page_changed (h : Kpt s t) (hp : Aligned p) (hn : p ∉ t.own) {m : Mem} (hf : Frame (page p) s.mem m) :
    Kpt ⟨m, s.freelist⟩ t ∧ lookup m t = lookup s.mem t := by
  have hpool : Pool (Kmem.mem ⟨m, s.freelist⟩) (Kmem.freelist ⟨m, s.freelist⟩) t.free :=
    h.pool.frame_page hp (fun hin => hn (Pt.free_mem_own hin)) hf
  obtain ⟨hk, hmap⟩ := h.transfer hf
    (fun a ha => Pages.page_disjoint (h.aligned a ha) hp fun he => hn (he ▸ Pt.addr_mem_own ha)) hpool h.low h.fresh
  exact ⟨hk, funext hmap⟩

theorem Alone.page_changed (h : Alone s t t' n) (hp : Aligned p) (hn : p ∉ t.own) {m : Mem}
    (hf : Frame (page p) s.mem m) : Alone ⟨m, s.freelist⟩ t t' n ∧ lookup m t = lookup s.mem t := by
  obtain ⟨hk, hmap⟩ := h.kpt.page_changed hp hn hf
  have hpage : leafPage ⟨m, s.freelist⟩ t = leafPage s t := funext fun v => congrArg PTE2PA (congrFun hmap v)
  exact ⟨⟨hk, fun v hv => hmap ▸ h.leaf v hv, fun v hv => hpage ▸ h.not_own v hv, fun v hv => hpage ▸ h.not_own' v hv⟩,
    hmap⟩

theorem Apart.write (h : Apart s t t' n) (hva : vpn va < n) (x : Byte) :
    Apart (writeVia (t.addr .root) va x s) t t' n ∧
      ∀ va', vpn va' < n → readVia (t'.addr .root) va' (writeVia (t.addr .root) va x s) = readVia (t'.addr .root) va' s := by
  have hle := h.le
  have hwrite : writeVia (t.addr .root) va x s =
      ⟨update s.mem (off (leafPage s t (vpn va)) (va.toNat % PGSIZE)) x, s.freelist⟩ := by
    rw [writeVia, h.left.kpt.translate (by omega) (h.left.leaf _ hva)]
    rfl
  have hf := update_frame s.mem (leafPage s t (vpn va)) va x
  rw [hwrite]
  generalize update s.mem (off (leafPage s t (vpn va)) (va.toNat % PGSIZE)) x = m at hf ⊢
  have hp : Aligned (leafPage s t (vpn va)) := PTE2PA_aligned _
  obtain ⟨hl, hmap⟩ := h.left.page_changed hp (h.left.not_own _ hva) hf
  obtain ⟨hr, hmap'⟩ := h.right.page_changed hp (h.left.not_own' _ hva) hf
  have hpage : leafPage ⟨m, s.freelist⟩ t = leafPage s t := funext fun v => congrArg PTE2PA (congrFun hmap v)
  have hpage' : leafPage ⟨m, s.freelist⟩ t' = leafPage s t' := funext fun v => congrArg PTE2PA (congrFun hmap' v)
  refine ⟨⟨hl, hr, ?_, hle⟩, ?_⟩
  · rw [hpage, hpage']
    exact h.ne
  · intro va' hva'
    rw [readVia, readVia, hr.kpt.translate (by omega) (hr.leaf _ hva'), h.right.kpt.translate (by omega)
      (h.right.leaf _ hva'),
      hpage']
    have hd := Pages.page_disjoint (PTE2PA_aligned _) hp (fun he => h.ne _ hva _ hva' he.symm)
    have hbyte := hf.byte hd (offset_lt va') (lt_trans (offset_lt va') (by decide))
    exact congrArg some hbyte

/-- Writes through the two tables, in any order; `true` is the second. -/
def runWrites (old new : Addr) : List (Bool × Addr × Byte) → Kmem → Kmem
  | [], s => s
  | w :: ws, s => runWrites old new ws (writeVia (if w.1 then new else old) w.2.1 w.2.2 s)

/-- After any writes through the two tables, a write through one of them is not read through the other. -/
def Private (old new : Addr) (n : ℕ) (s : Kmem) : Prop :=
  ∀ ws : List (Bool × Addr × Byte), (∀ w ∈ ws, vpn w.2.1 < n) → ∀ va va' x, vpn va < n → vpn va' < n →
    readVia new va' (writeVia old va x (runWrites old new ws s)) = readVia new va' (runWrites old new ws s) ∧
      readVia old va' (writeVia new va x (runWrites old new ws s)) = readVia old va' (runWrites old new ws s)

theorem Apart.runWrites (h : Apart s t t' n) {ws : List (Bool × Addr × Byte)} (hws : ∀ w ∈ ws, vpn w.2.1 < n) :
    Apart (runWrites (t.addr .root) (t'.addr .root) ws s) t t' n := by
  induction ws generalizing s with
  | nil => exact h
  | cons w ws ih =>
    obtain ⟨who, va, x⟩ := w
    have hva : vpn va < n := hws _ List.mem_cons_self
    refine ih ?_ fun w hw => hws w (List.mem_cons_of_mem _ hw)
    cases who with
    | false => exact (h.write hva x).1
    | true => exact (h.symm.write hva x).1.symm

theorem Apart.isPrivate (h : Apart s t t' n) : Private (t.addr .root) (t'.addr .root) n s := by
  intro ws hws va va' x hva hva'
  have h' := h.runWrites hws
  exact ⟨(h'.write hva x).2 va' hva', (h'.symm.write hva x).2 va' hva'⟩

/-! ## The copy -/

theorem memmove_apart (m : Mem) {dst src : Addr} (hn : n < 2 ^ 64) (h : ∀ i < n, ∀ k < n, off dst i ≠ off src k) :
    memmove m dst src n = blit m dst src n := by
  rcases Nat.eq_zero_or_pos n with rfl | hpos
  · rw [memmove, if_pos rfl, blit, put_zero]
  · have h1 : n ≤ (dst - src).toNat := by
      by_contra hlt
      refine h 0 hpos _ (not_le.mp hlt) ?_
      rw [off_zero, off_toNat_sub]
    have h2 : n ≤ (src - dst).toNat := by
      by_contra hlt
      refine h _ (not_le.mp hlt) 0 hpos ?_
      rw [off_zero, off_toNat_sub]
    rw [memmove, if_neg hpos.ne']
    split
    · refine copyBackward_eq_blit n dst src m ?_
      bv_omega
    · exact copyForward_eq_blit n dst src m hn.le (Or.inr h1)

theorem memmove_page (m : Mem) {p q : Addr} (hp : Aligned p) (hq : Aligned q) (hne : p ≠ q) :
    memmove m p q PGSIZE = blit m p q PGSIZE := by
  refine memmove_apart m (by decide) fun i hi k hk he => ?_
  have hi' : i < 2 ^ 64 := by
    unfold PGSIZE at hi
    omega
  have hk' : k < 2 ^ 64 := by
    unfold PGSIZE at hk
    omega
  exact Set.disjoint_left.mp (page_disjoint hp hq hne) (off_mem_span p hi hi') (he ▸ off_mem_span q hk hk')

/-- The parent: every page of `[0, sz)` is mapped, and neither these pages nor its table are the child's or free. -/
structure Parent (old : Addr) (sz : BitVec 64) (s : Kmem) (tp t : Pt) : Prop where
  kpt : Kpt s tp
  root : tp.addr .root = old
  nodes : ∀ a ∈ tp.dom, tp.addr a ∉ t.own
  leaf : ∀ v, PGSIZE * v < sz.toNat → IsLeaf (lookup s.mem tp v)
  not_own : ∀ v, PGSIZE * v < sz.toNat → leafPage s tp v ∉ t.own
  not_node : ∀ v, PGSIZE * v < sz.toNat → ∀ a ∈ tp.dom, tp.addr a ≠ leafPage s tp v

section Parent
variable (hp : Parent old sz s tp t) (hal : ∀ q ∈ t.own, Aligned q)
include hp hal

theorem Parent.unchanged (hf : Frame (region t.own) s.mem s₁.mem) (hk : Kpt s₁ t₁) (hsub : t₁.own ⊆ t.own) :
    Kpt s₁ { tp with free := t₁.free } ∧ lookup s₁.mem { tp with free := t₁.free } = lookup s.mem tp := by
  obtain ⟨hk', hmap⟩ := hp.kpt.transfer hf
    (fun a ha => page_disjoint_region hal (hp.kpt.aligned a ha) (hp.nodes a ha)) hk.pool hk.low
    fun a ha hin => hp.nodes a ha (hsub (Pt.free_mem_own hin))
  exact ⟨hk', funext hmap⟩

theorem Parent.byte {m : Mem} (hf : Frame (region t.own) s.mem m) (hv : PGSIZE * v < sz.toNat) {j : ℕ} (hj : j < PGSIZE) :
    m (off (leafPage s tp v) j) = s.mem (off (leafPage s tp v) j) :=
  hf.byte (page_disjoint_region hal (PTE2PA_aligned _) (hp.not_own v hv)) hj (by unfold PGSIZE at hj; omega)

theorem Parent.entry_eq (hf : Frame (region t.own) s.mem s₁.mem) (hk : Kpt s₁ t₁) (hsub : t₁.own ⊆ t.own) (va : Addr) :
    entry old va s₁ = entry old va s := by
  by_cases hva : va < MAXVA
  · obtain ⟨hkp, hmap⟩ := hp.unchanged hal hf hk hsub
    have he := hkp.entry_eq hva
    rw [hmap] at he
    rw [← hp.root, hp.kpt.entry_eq hva]
    exact he
  · rw [entry, entry, walk_eq_none hva, walk_eq_none hva]

theorem Parent.readVia_eq (hf : Frame (region t.own) s.mem s₁.mem) (hk : Kpt s₁ t₁) (hsub : t₁.own ⊆ t.own)
    (hva : PGSIZE * vpn va < sz.toNat) : readVia old va s₁ = readVia old va s := by
  have he := hp.entry_eq hal hf hk hsub va
  by_cases hlt : va < MAXVA
  · have ht := hp.kpt.translate (lt_MAXVA_iff.mp hlt) (hp.leaf _ hva)
    rw [hp.root] at ht
    have ht' : translate old va s₁ = translate old va s := by rw [translate, translate, he]
    rw [readVia, readVia, ht', ht]
    exact congrArg some (hp.byte hal hf hva (offset_lt va))
  · have h0 : entry old va s = 0 := by rw [entry, walk_eq_none hlt]
    rw [readVia, readVia, translate, translate, he, h0]
    rfl

end Parent

/-- What `uvmcopy` maps: the parent's bytes with the parent's flags. -/
abbrev Copied (s : Kmem) (tp : Pt) :=
  Taken (fun i => PTE_FLAGS (lookup s.mem tp i)) fun i j => s.mem (off (leafPage s tp i) j)

theorem flags_or_V {pte : BitVec 64} (h : IsLeaf pte) : PTE_FLAGS pte ||| PTE_V = PTE_FLAGS pte := by
  have h0 : pte.getLsbD 0 = true := by
    by_contra hb
    refine h.1 ?_
    rw [PTE_V, show (1 : BitVec 64) = 1#64 from rfl, BitVec.and_one_eq_setWidth_ofBool_getLsbD]
    rw [eq_false_of_ne_true hb]
    rfl
  apply BitVec.eq_of_getLsbD_eq
  intro i hi
  rw [BitVec.getLsbD_or]
  cases i with
  | zero =>
    rw [PTE_FLAGS, BitVec.getLsbD_and, h0]
    rfl
  | succ i => simp [PTE_V, BitVec.getLsbD_one]

theorem PTE_FLAGS_lt (pte : BitVec 64) : (PTE_FLAGS pte).toNat < 1024 := by
  rw [PTE_FLAGS_toNat]
  omega

/-- How `uvmcopy` ends. -/
def CopyEnded (sz : BitVec 64) (s : Kmem) (tp t : Pt) (r : ℤ) (s' : Kmem) : Prop :=
  (r = 0 ∧ ∃ t', Copied s tp s t 0 s' t' ((sz.toNat + 4095) / 4096)) ∨
    (r = -1 ∧ ∃ k t', Restored s t 0 k s' t' ∧ k ≤ vpn TRAPFRAME)

section Copy
variable (hsym : sym.Fits) (hc : Uspace sym new s t 0)
include hsym hc

theorem uvmcopyErr_restores (hk : Copied s tp s t 0 s₁ t₁ k) {i : Addr} (hi : i.toNat = 4096 * k) :
    ∃ s', uvmcopyErr sym new i s₁ = some (-1, s') ∧ CopyEnded sz s tp t (-1) s' := by
  have hcard := hk.le_card
  have hbound := hc.bound
  have htop := vpn_TRAPFRAME
  have hcount : i / BitVec.ofNat 64 PGSIZE = BitVec.ofNat 64 k := by
    apply BitVec.eq_of_toNat_eq
    rw [BitVec.toNat_udiv, hi, show (BitVec.ofNat 64 PGSIZE).toNat = 4096 from rfl, BitVec.toNat_ofNat]
    omega
  have hzero : Aligned 0 := rfl
  obtain ⟨s', t', hrun, hr⟩ := hk.uvmunmap hsym hc.isPage hzero rfl (by omega)
    fun i hi => hc.unmapped _ (Nat.zero_le _) (by omega)
  rw [hc.root] at hrun
  refine ⟨s', ?_, Or.inr ⟨rfl, k, t', hr, by omega⟩⟩
  rw [uvmcopyErr, hcount, hrun]
  rfl

/-- The loop of `uvmcopy`, by induction on its turns. -/
theorem uvmcopyLoop_ends (hp : Parent old sz s tp t) (fuel : ℕ) {i : Addr} (hk : Copied s tp s t 0 s₁ t₁ k)
    (hi : i.toNat = 4096 * k)
    (hfuel : sz.toNat / 4096 + 2 ≤ k + fuel) (hlast : k = 0 ∨ 4096 * k < sz.toNat + 4096) :
    ∃ r s', uvmcopyLoop sym old new sz fuel i s₁ = some (r, s') ∧ CopyEnded sz s tp t r s' := by
  induction fuel generalizing k i s₁ t₁ with
  | zero => omega
  | succ fuel ih =>
    have hcard := hk.le_card
    have hbound := hc.bound
    have htop := vpn_TRAPFRAME
    have hal : ∀ q ∈ t.own, Aligned q := fun q hq => (hc.isPage q hq).aligned
    have hvpn : vpn i = k := by
      unfold vpn
      omega
    rw [Kernel.uvmcopyLoop]
    by_cases hlt : i < sz
    · have hlt' := BitVec.lt_def.mp hlt
      have hin : PGSIZE * k < sz.toNat := by
        unfold PGSIZE
        omega
      have hleaf := hp.leaf k hin
      have hmem : leafOf k ∈ tp.dom := leafOf_mem hleaf.ne_zero
      -- the parent's entry, found through its table as it was
      obtain ⟨hkp, hmap⟩ := hp.unchanged hal hk.frame hk.kpt hk.own_subset
      have hw : walk old i false s₁ = some (tp.slot k, s₁) := by
        have hslot : walk (tp.addr .root) i false s₁ = _ := hkp.walk_slot (lt_MAXVA_iff.mpr (by omega))
        rw [hvpn, if_pos hmem, hp.root] at hslot
        exact hslot
      have hslot : tp.slot k ≠ 0 := hp.kpt.slot_ne hmem
      have hload : load 64 s₁.mem (tp.slot k) = lookup s.mem tp k := by
        rw [← hmap]
        exact load_slot (t := { tp with free := t₁.free }) hmem
      rw [if_pos hlt, hw]
      simp only [Option.bind_eq_bind, Option.bind_some]
      rw [if_neg hslot, hload, if_neg hleaf.1]
      cases hfree : t₁.free with
      | nil =>
        have hpool := hk.kpt.pool
        rw [hfree] at hpool
        obtain ⟨s', hrun, hend⟩ := uvmcopyErr_restores hsym hc hk hi
        rw [kalloc_nil hpool, if_pos rfl]
        exact ⟨-1, s', hrun, hend⟩
      | cons p l =>
        have hpool := hk.kpt.pool
        rw [hfree] at hpool
        obtain ⟨hka, h0, _, hf⟩ := kalloc_cons hpool
        have hpown : p ∈ t.own := hk.own_subset (Pt.free_mem_own (Pt.head_mem hfree))
        have hne : p ≠ leafPage s tp k := fun he => hp.not_own k hin (he ▸ hpown)
        have hmove := memmove_page (kalloc s₁).2.mem (hal p hpown) (PTE2PA_aligned (lookup s.mem tp k)) hne
        have hbytes : ∀ j < PGSIZE, memmove (kalloc s₁).2.mem p (PTE2PA (lookup s.mem tp k)) PGSIZE (off p j) =
            s.mem (off (leafPage s tp k) j) := by
          intro j hj
          rw [hmove, blit_off _ _ _ hj (by unfold PGSIZE at hj; omega)]
          exact hp.byte hal (hk.frame.trans (hf.mono (page_subset_region hpown))) hin hj
        have hframe : Frame (page p) (kalloc s₁).2.mem (memmove (kalloc s₁).2.mem p (PTE2PA (lookup s.mem tp k)) PGSIZE) := by
          rw [hmove]
          exact blit_frame _ _ _ _
        have hial : Aligned i := by
          change i.toNat % 4096 = 0
          omega
        have hflags := flags_or_V hleaf
        obtain ⟨s₂, hnext⟩ := hk.next hsym hc.isPage hfree hframe hbytes hial (by omega) (by omega)
          (hc.unmapped _ (Nat.zero_le _) (by omega)) (PTE_FLAGS_lt (lookup s.mem tp k)) hflags (hflags.symm ▸ hleaf.2)
        rw [hka, if_neg h0]
        rw [hc.root] at hnext
        rcases hnext with ⟨hrun, t₂, hk₂⟩ | ⟨hrun, s₃, t₃, hfreed, hk₃⟩
        · rw [hrun]
          refine ih hk₂ ?_ (by omega) (Or.inr (by omega))
          rw [off_toNat _ _ (by unfold PGSIZE; omega), hi]
          unfold PGSIZE
          omega
        · obtain ⟨s', hrun', hend⟩ := uvmcopyErr_restores hsym hc hk₃ hi
          rw [hrun]
          refine ⟨-1, s', ?_, hend⟩
          change (kfree sym p s₂).bind _ = _
          rw [hfreed]
          exact hrun'
    · have hge := BitVec.le_def.mp (BitVec.not_lt.mp hlt)
      have hn : k = (sz.toNat + 4095) / 4096 := by omega
      rw [if_neg hlt]
      exact ⟨0, s₁, rfl, Or.inl ⟨rfl, t₁, hn ▸ hk⟩⟩

omit hsym in
theorem Parent.apart (hp : Parent old sz s tp t) (hn : n = (sz.toNat + 4095) / 4096) (hk : Copied s tp s t 0 s' t' n) :
    Apart s' { tp with free := t'.free } t' n ∧ lookup s'.mem { tp with free := t'.free } = lookup s.mem tp := by
  have hcard := hk.le_card
  have hbound := hc.bound
  have hal : ∀ q ∈ t.own, Aligned q := fun q hq => (hc.isPage q hq).aligned
  have hin : ∀ v < n, PGSIZE * v < sz.toNat := by
    intro v hv
    unfold PGSIZE
    omega
  obtain ⟨hkp, hmap⟩ := hp.unchanged hal hk.frame hk.kpt hk.own_subset
  have hpage : leafPage s' { tp with free := t'.free } = leafPage s tp :=
    funext fun v => congrArg PTE2PA (congrFun hmap v)
  -- the child's pages come from the free list
  have hchild : ∀ v < n, leafPage s' t' v ∈ t.own ∧ leafPage s' t' v ∉ t'.own ∧ IsLeaf (lookup s'.mem t' v) := by
    intro v hv
    have h1 := hk.leafPage_mem hv
    have h2 := hk.fresh.not_own v hv
    have h3 := hk.leaf v hv
    rw [Nat.zero_add] at h1 h2 h3
    exact ⟨h1, h2, h3⟩
  refine ⟨⟨⟨hkp, ?_, ?_, ?_⟩, ⟨hk.kpt, fun v hv => (hchild v hv).2.2, fun v hv => (hchild v hv).2.1, ?_⟩, ?_, by omega⟩,
    hmap⟩
  · intro v hv
    rw [hmap]
    exact hp.leaf v (hin v hv)
  · intro v hv hown
    rw [hpage] at hown
    rcases Pt.mem_own.mp hown with ⟨a, ha, he⟩ | hfree
    · exact hp.not_node v (hin v hv) a ha he
    · exact hp.not_own v (hin v hv) (hk.own_subset (Pt.free_mem_own hfree))
  · intro v hv hown
    rw [hpage] at hown
    exact hp.not_own v (hin v hv) (hk.own_subset hown)
  · intro v hv hown
    rcases Pt.mem_own.mp hown with ⟨a, ha, he⟩ | hfree
    · exact hp.nodes a ha (he ▸ (hchild v hv).1)
    · exact (hchild v hv).2.1 (Pt.free_mem_own hfree)
  · intro v hv w hw he
    rw [hpage] at he
    exact hp.not_own v (hin v hv) (he ▸ (hchild w hw).1)

omit hsym in
theorem Parent.child_reads (hp : Parent old sz s tp t) (hk : Copied s tp s t 0 s' t' n) (hn : n = (sz.toNat + 4095) / 4096)
    (hva : vpn va < n) :
    readVia new va s' = readVia old va s ∧ PTE_FLAGS (entry new va s') = PTE_FLAGS (entry old va s) := by
  have hcard := hk.le_card
  have hbound := hc.bound
  have hlt : vpn va < 2 ^ 26 := by omega
  have hin : PGSIZE * vpn va < sz.toNat := by
    unfold PGSIZE
    omega
  have hleaf := hk.leaf _ hva
  have hflags := hk.flags _ hva
  have hbytes := hk.bytes _ hva _ (offset_lt va)
  rw [Nat.zero_add] at hleaf hflags hbytes
  have ht := hk.kpt.translate hlt hleaf
  have htp := hp.kpt.translate hlt (hp.leaf _ hin)
  have he := hk.kpt.entry_eq (lt_MAXVA_iff.mpr hlt)
  have hep := hp.kpt.entry_eq (lt_MAXVA_iff.mpr hlt)
  rw [hk.root, hc.root] at ht he
  rw [hp.root] at htp hep
  refine ⟨?_, ?_⟩
  · rw [readVia, readVia, ht, htp]
    exact congrArg some hbytes
  · rw [he, hep]
    exact hflags

/-- **`uvmcopy` copies faithfully and privately.** -/
theorem uvmcopy_faithful (hp : Parent old sz s tp t) :
    ∃ r s' t', uvmcopy sym old new sz s = some (r, s') ∧ (∀ va, entry old va s' = entry old va s) ∧
      (∀ va, vpn va < (sz.toNat + 4095) / 4096 → readVia old va s' = readVia old va s) ∧
      ((r = 0 ∧ Uspace sym new s' t' ((sz.toNat + 4095) / 4096) ∧
          (∀ va, vpn va < (sz.toNat + 4095) / 4096 → readVia new va s' = readVia old va s ∧
            PTE_FLAGS (entry new va s') = PTE_FLAGS (entry old va s)) ∧
          (∀ v < (sz.toNat + 4095) / 4096, ∀ w < (sz.toNat + 4095) / 4096, leafPage s tp v ≠ leafPage s' t' w) ∧
          Private old new ((sz.toNat + 4095) / 4096) s') ∨
        (r = -1 ∧ Uspace sym new s' t' 0 ∧ ∀ p ∈ t.free, p ∈ t'.free ∨ ∃ a ∈ t'.dom, t'.addr a = p)) := by
  have hal : ∀ q ∈ t.own, Aligned q := fun q hq => (hc.isPage q hq).aligned
  have hzero : (0 : Addr).toNat = 4096 * 0 := rfl
  have hin : ∀ va : Addr, vpn va < (sz.toNat + 4095) / 4096 → PGSIZE * vpn va < sz.toNat := by
    intro va hva
    unfold PGSIZE
    omega
  obtain ⟨r, s', hrun, hend⟩ := uvmcopyLoop_ends hsym hc hp (sz.toNat / PGSIZE + 2) (Taken.zero hc.kpt _ _ _) hzero
    (by unfold PGSIZE; omega) (Or.inl rfl)
  rcases hend with ⟨rfl, t', hk⟩ | ⟨rfl, k, t', hr, _⟩
  · obtain ⟨hapart, hmap⟩ := hp.apart hc rfl hk
    have huser := hc.taken hk
    rw [Nat.zero_add] at huser
    have hpage : leafPage s' { tp with free := t'.free } = leafPage s tp :=
      funext fun v => congrArg PTE2PA (congrFun hmap v)
    have hprivate : Private (tp.addr .root) (t'.addr .root) _ s' := hapart.isPrivate
    have hne := hapart.ne
    rw [hpage] at hne
    rw [hp.root, hk.root, hc.root] at hprivate
    exact ⟨0, s', t', hrun, hp.entry_eq hal hk.frame hk.kpt hk.own_subset,
      fun va hva => hp.readVia_eq hal hk.frame hk.kpt hk.own_subset (hin va hva),
      Or.inl ⟨rfl, huser, fun va hva => hp.child_reads hc hk rfl hva, hne, hprivate⟩⟩
  · refine ⟨-1, s', t', hrun, hp.entry_eq hal hr.frame hr.kpt hr.own.subset,
      fun va hva => hp.readVia_eq hal hr.frame hr.kpt hr.own.subset (hin va hva), Or.inr ⟨rfl, hc.restored hr, ?_⟩⟩
    intro p hp
    have hin := Pt.free_mem_own hp
    rw [← hr.own] at hin
    exact (Pt.mem_own.mp hin).symm

end Copy

/-! ## Tables of a running system -/

theorem fork_tables (h : Known sym old s tp) (hleaf : ∀ v, PGSIZE * v < sz.toNat → IsLeaf (lookup s.mem tp v))
    (hown : ∀ v, PGSIZE * v < sz.toNat → leafPage s tp v ∉ tp.own) (hfree : tp.free = p :: l) :
    ∃ s', uvmcreate s = (p, s') ∧ Uspace sym p s' (Pt.single p l) 0 ∧
      Parent old sz s' { tp with free := l } (Pt.single p l) := by
  have hpool := h.kpt.pool
  rw [hfree] at hpool
  have hsub : ∀ q, q ∈ (Pt.single p l).own → q ∈ tp.free := by
    intro q hq
    rw [hfree]
    exact Pt.mem_single_own.mp hq
  obtain ⟨⟨m, fl⟩, hrun, hnew, hz, hf, hlist⟩ := uvmcreate_known hpool fun q hq => h.isPage q (Pt.free_mem_own (hfree ▸ hq))
  have hlist' : fl = (kalloc s).2.freelist := hlist
  subst hlist'
  obtain ⟨hk, hmap, _, _⟩ := h.kpt.take hfree hf
  have hpage : leafPage ⟨m, (kalloc s).2.freelist⟩ { tp with free := l } = leafPage s tp :=
    funext fun v => congrArg PTE2PA (congrFun hmap v)
  refine ⟨_, hrun, hnew.uspace hz, hk, h.root, ?_, ?_, ?_, ?_⟩
  · exact fun a ha hq => h.kpt.fresh a ha (hsub _ hq)
  · intro v hv
    rw [hmap]
    exact hleaf v hv
  · intro v hv hq
    rw [hpage] at hq
    exact hown v hv (Pt.free_mem_own (hsub _ hq))
  · intro v hv a ha he
    rw [hpage] at he
    exact hown v hv (he ▸ Pt.addr_mem_own ha)

theorem booted_parent (perm : BitVec 64) : ∃ root s tp p l, Known linked root s tp ∧ tp.free = p :: l ∧
    lookup s.mem tp = mapRange (fun _ => 0) 0 1 KERNBASE perm := by
  obtain ⟨s, _, hpool, _⟩ := kinit_pool linked_fits ⟨fun _ => 0, 0⟩ rfl
  have hcount : freeCount linked = 32742 + 1 := by decide
  have hpages : ∀ q ∈ freePages linked (freeCount linked), IsPage linked q := by
    intro q hq
    obtain ⟨i, hi, rfl⟩ := mem_freePages.mp hq
    exact freePage_isPage linked_fits hi
  rw [hcount, freePages_succ] at hpool hpages
  obtain ⟨s', t, _, hk, hmap, hlen, _⟩ := first_pages hpool hpages (by rw [freePages_length]; decide) KERNBASE
    perm Nat.one_pos (by decide)
  rw [freePages_length] at hlen
  cases hfree : t.free with
  | nil =>
    rw [hfree, List.length_nil] at hlen
    omega
  | cons p l =>
    exact ⟨_, s', t, p, l, hk, hfree, hmap⟩

/-- One page copied, on the booted allocator. -/
theorem booted_uvmcopy : ∃ old new s tp t, Uspace linked new s t 0 ∧ Parent old 0x1000#64 s tp t ∧
    ∃ r s', uvmcopy linked old new 0x1000#64 s = some (r, s') := by
  obtain ⟨old, s, tp, p, l, h, hfree, hmap⟩ := booted_parent (PTE_R ||| PTE_U)
  have hzero : ∀ v, PGSIZE * v < (0x1000#64).toNat → v = 0 := by
    intro v hv
    have : PGSIZE * v < 4096 := hv
    unfold PGSIZE at this
    omega
  have hentry : lookup s.mem tp 0 = PA2PTE KERNBASE ||| (PTE_R ||| PTE_U) ||| PTE_V := by
    rw [hmap]
    rfl
  have hleaf : ∀ v, PGSIZE * v < (0x1000#64).toNat → IsLeaf (lookup s.mem tp v) := by
    intro v hv
    rw [hzero v hv, hentry]
    decide
  have hown : ∀ v, PGSIZE * v < (0x1000#64).toNat → leafPage s tp v ∉ tp.own := by
    intro v hv hq
    have hge := (h.isPage _ hq).ge_end
    rw [hzero v hv, leafPage, hentry] at hge
    revert hge
    decide
  obtain ⟨s', _, hc, hp⟩ := fork_tables h hleaf hown hfree
  obtain ⟨r, s'', _, hrun, _⟩ := uvmcopy_faithful linked_fits hc hp
  exact ⟨old, p, s', _, _, hc, hp, r, s'', hrun⟩

end Xv6Boot.Kernel
