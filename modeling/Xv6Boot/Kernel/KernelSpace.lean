import Xv6Boot.Kernel.Mapping

/-! # The kernel's address space

The map `kvmmake` builds is `kernelMap`: the device windows, the kernel image and the RAM up to `PHYSTOP`
mapped to themselves, the trampoline, and one fresh page for each kernel stack (`kvmmake_spec`). The boot
stack, on which `main` is still running when paging is turned on, lies below `KERNBASE` and is not in it
(`kvmmake_stack_unmapped`).
-/

namespace Xv6Boot.Kernel
open Function ByteMemory Loop StringC Pages
open ProcTable (NPROC)

/-! ## A new table, and pages taken from under one -/

variable {k n v : ℕ} {S : Finset Node} {l : List Addr}

theorem Space.new {s : Kmem} {p : Addr} (hpool : Pool s.mem s.freelist (p :: l))
    (hlow : ∀ q ∈ p :: l, q.toNat < 2 ^ 56) (hroot : .root ∈ S) (hroom : S.card + k ≤ l.length + 1) :
    Space S k p (fun _ => 0) ⟨memset (kalloc s).2.mem p 0 PGSIZE, (kalloc s).2.freelist⟩
      ⟨{.root}, fun _ => p, l⟩ := by
  obtain ⟨hkpt, hmap⟩ := Kpt.new hpool hlow
  generalize memset (Kernel.kalloc s).2.mem p 0 PGSIZE = m at hkpt hmap ⊢
  refine ⟨hkpt, rfl, Finset.singleton_subset_iff.mpr hroot, ?_, hmap⟩
  rw [Finset.card_singleton]
  exact hroom

section Take
variable {s : Kmem} {t : Pt}

theorem Space.kalloc_page {root : Addr} {f : ℕ → BitVec 64} (h : Space S (k + 1) root f s t) :
    ∃ p l, t.free = p :: l ∧ (kalloc s).1 = p ∧ p ≠ 0 ∧
      Space S k root f (kalloc s).2 { t with free := l } := by
  obtain ⟨p, l, hfree, hk, h0, hroom⟩ := h.exists_page
  obtain ⟨hkpt, hmap⟩ := h.kpt.kalloc hfree
  exact ⟨p, l, hfree, hk, h0, hkpt, h.root_addr, h.bound, hroom, fun v => (hmap v).trans (h.map v)⟩

end Take

/-! ## The map -/

/-- `UART0`, `VIRTIO0`, `PLIC`, the kernel's text and everything from its data to the end of memory are
mapped to themselves; the trampoline page is mapped at the top. -/
def fixedMap (sym : Symbols) : ℕ → BitVec 64 :=
  let f := mapRange (fun _ => 0) (vpn UART0) 1 UART0 (PTE_R ||| PTE_W)
  let f := mapRange f (vpn VIRTIO0) 1 VIRTIO0 (PTE_R ||| PTE_W)
  let f := mapRange f (vpn PLIC) 0x4000 PLIC (PTE_R ||| PTE_W)
  let f := mapRange f (vpn KERNBASE) ((sym.etext - KERNBASE).toNat / PGSIZE) KERNBASE (PTE_R ||| PTE_X)
  let f := mapRange f (vpn sym.etext) ((PHYSTOP - sym.etext).toNat / PGSIZE) sym.etext (PTE_R ||| PTE_W)
  mapRange f (vpn TRAMPOLINE) 1 sym.trampoline (PTE_R ||| PTE_X)

def mapStacks (f : ℕ → BitVec 64) (stack : ℕ → Addr) : ℕ → ℕ → BitVec 64
  | 0 => f
  | p + 1 => mapRange (mapStacks f stack p) (vpn (KSTACK p)) 1 (stack p) (PTE_R ||| PTE_W)

def kernelMap (sym : Symbols) (stack : ℕ → Addr) : ℕ → BitVec 64 := mapStacks (fixedMap sym) stack NPROC

/-- What `kernel.ld` guarantees about the end of the text. -/
structure Symbols.TextFits (sym : Symbols) : Prop where
  aligned : Aligned sym.etext
  gt : KERNBASE < sym.etext
  lt : sym.etext < PHYSTOP

theorem linked_textFits : linked.TextFits := ⟨by unfold Aligned; decide, by decide, by decide⟩

section Text
variable {sym : Symbols} (ht : sym.TextFits)
include ht

theorem Symbols.TextFits.pages : ∃ e, 0x81000 < e ∧ e < 0x89000 ∧ vpn sym.etext = e ∧
    sym.etext.toNat = PGSIZE * e ∧ (sym.etext - KERNBASE).toNat = PGSIZE * (e - 0x81000) ∧
    (PHYSTOP - sym.etext).toNat = PGSIZE * (0x89000 - e) := by
  have hal := ht.aligned
  have hgt := ht.gt
  have hlt := ht.lt
  rw [BitVec.lt_def, show KERNBASE.toNat = 0x81000000 from rfl] at hgt
  rw [BitVec.lt_def, show PHYSTOP.toNat = 0x89000000 by decide] at hlt
  unfold Aligned pageBytes at hal
  have hs1 : (sym.etext - KERNBASE).toNat = sym.etext.toNat - 0x81000000 := by
    unfold KERNBASE
    bv_omega
  have hs2 : (PHYSTOP - sym.etext).toNat = 0x89000000 - sym.etext.toNat := by
    unfold PHYSTOP KERNBASE
    bv_omega
  refine ⟨vpn sym.etext, ?_, ?_, rfl, ?_, ?_, ?_⟩ <;> unfold vpn <;> (try unfold PGSIZE) <;> omega

end Text

theorem KSTACK_toNat {p : ℕ} (hp : p < NPROC) : (KSTACK p).toNat = 2 ^ 38 - 4096 - 8192 * (p + 1) := by
  unfold NPROC at hp
  unfold KSTACK TRAMPOLINE MAXVA PGSIZE
  bv_omega

theorem vpn_KSTACK {p : ℕ} (hp : p < NPROC) : vpn (KSTACK p) = 2 ^ 26 - 1 - 2 * (p + 1) := by
  rw [vpn, KSTACK_toNat hp]
  unfold NPROC at hp
  omega

variable {f : ℕ → BitVec 64} {sym : Symbols}

theorem mapStacks_congr {stack stack' : ℕ → Addr} (h : ∀ p < n, stack p = stack' p) :
    mapStacks f stack n = mapStacks f stack' n := by
  induction n with
  | zero => rfl
  | succ n ih => rw [mapStacks, mapStacks, ih fun p hp => h p (by omega), h n (by omega)]

theorem mapStacks_below {stack : ℕ → Addr} {x : ℕ} (hn : n ≤ NPROC) (hx : x < 2 ^ 26 - 1 - 2 * n) :
    mapStacks f stack n x = f x := by
  induction n with
  | zero => rfl
  | succ n ih =>
    have hv := vpn_KSTACK (show n < NPROC by omega)
    rw [mapStacks, mapRange_of_not_mem (by omega)]
    exact ih (by omega) (by omega)

theorem vpn_KERNBASE : vpn KERNBASE = 0x81000 := rfl

theorem vpn_UART0 : vpn UART0 = 0x10000 := rfl

theorem vpn_VIRTIO0 : vpn VIRTIO0 = 0x10001 := rfl

theorem vpn_PLIC : vpn PLIC = 0xc000 := rfl

section Fixed
variable (ht : sym.TextFits)
include ht

theorem fixedMap_eq : fixedMap sym =
    mapRange (mapRange (mapRange (mapRange (mapRange (mapRange (fun _ => 0)
      0x10000 1 UART0 (PTE_R ||| PTE_W)) 0x10001 1 VIRTIO0 (PTE_R ||| PTE_W)) 0xc000 0x4000 PLIC (PTE_R ||| PTE_W))
      0x81000 (vpn sym.etext - 0x81000) KERNBASE (PTE_R ||| PTE_X))
      (vpn sym.etext) (0x89000 - vpn sym.etext) sym.etext (PTE_R ||| PTE_W))
      (2 ^ 26 - 1) 1 sym.trampoline (PTE_R ||| PTE_X) := by
  obtain ⟨e, he, he', hv, -, hs1, hs2⟩ := ht.pages
  have hd1 : (sym.etext - KERNBASE).toNat / PGSIZE = e - 0x81000 := by
    rw [hs1]
    exact Nat.mul_div_cancel_left _ (by decide)
  have hd2 : (PHYSTOP - sym.etext).toNat / PGSIZE = 0x89000 - e := by
    rw [hs2]
    exact Nat.mul_div_cancel_left _ (by decide)
  rw [fixedMap, vpn_KERNBASE, vpn_UART0, vpn_VIRTIO0, vpn_PLIC, vpn_TRAMPOLINE, hd1, hd2, hv]

theorem fixedMap_gap {x : ℕ} (h : 0x10002 ≤ x ∧ x < 0x81000 ∨ 0x89000 ≤ x ∧ x < 2 ^ 26 - 1) : fixedMap sym x = 0 := by
  obtain ⟨e, he, he', hv, -⟩ := ht.pages
  rw [fixedMap_eq ht, mapRange_of_not_mem (by omega), mapRange_of_not_mem (by omega), mapRange_of_not_mem (by omega),
    mapRange_of_not_mem (by omega), mapRange_of_not_mem (by omega), mapRange_of_not_mem (by omega)]

end Fixed

/-! ## The tables it needs -/

def kernelNodes : Finset Node :=
  {.root, .mid 0, .mid 2, .mid 255, .leaf 255 511} ∪
    ((Finset.Icc 96 128).image (Node.leaf 0) ∪ (Finset.Ico 8 72).image (Node.leaf 2))

theorem kernelNodes_card_le : kernelNodes.card ≤ 102 := by
  have h1 : ((Finset.Icc 96 128).image (Node.leaf 0)).card ≤ 33 := Finset.card_image_le
  have h2 : ((Finset.Ico 8 72).image (Node.leaf 2)).card ≤ 64 := Finset.card_image_le
  have h3 : ({.root, .mid 0, .mid 2, .mid 255, .leaf 255 511} : Finset Node).card ≤ 5 := Finset.card_le_five
  have h4 := Finset.card_union_le ((Finset.Icc 96 128).image (Node.leaf 0))
    ((Finset.Ico 8 72).image (Node.leaf 2))
  have h5 := Finset.card_union_le ({.root, .mid 0, .mid 2, .mid 255, .leaf 255 511} : Finset Node)
    ((Finset.Icc 96 128).image (Node.leaf 0) ∪ (Finset.Ico 8 72).image (Node.leaf 2))
  unfold kernelNodes
  omega

theorem root_mem_kernelNodes : Node.root ∈ kernelNodes := by simp [kernelNodes]

theorem covers_devices (h : 0xc000 ≤ v) (h' : v + n ≤ 0x10200) : Covers kernelNodes v n := by
  intro x hx hx'
  have hm : x / 2 ^ 18 = 0 := by omega
  have hl : 96 ≤ x / 2 ^ 9 % 512 ∧ x / 2 ^ 9 % 512 ≤ 128 := by omega
  rw [midOf, leafOf, hm]
  generalize x / 2 ^ 9 % 512 = j at hl ⊢
  simp [kernelNodes, hl]

theorem covers_ram (h : 0x81000 ≤ v) (h' : v + n ≤ 0x89000) : Covers kernelNodes v n := by
  intro x hx hx'
  have hm : x / 2 ^ 18 = 2 := by omega
  have hl : 8 ≤ x / 2 ^ 9 % 512 ∧ x / 2 ^ 9 % 512 < 72 := by omega
  rw [midOf, leafOf, hm]
  generalize x / 2 ^ 9 % 512 = j at hl ⊢
  simp [kernelNodes, hl]

theorem covers_top (h : 2 ^ 26 - 512 ≤ v) (h' : v + n ≤ 2 ^ 26) : Covers kernelNodes v n := by
  intro x hx hx'
  have hm : x / 2 ^ 18 = 255 := by omega
  have hl : x / 2 ^ 9 % 512 = 511 := by omega
  rw [midOf, leafOf, hm, hl]
  simp [kernelNodes]

/-! ## `proc_mapstacks` -/

theorem page_toNat : (BitVec.ofNat 64 PGSIZE).toNat = PGSIZE * 1 := rfl

/-- What is known after `p` stacks: their pages were free and are distinct. -/
structure StacksMapped (L : List Addr) (f : ℕ → BitVec 64) (root : Addr) (stack : ℕ → Addr) (p : ℕ) (s : Kmem)
    (t : Pt) : Prop where
  space : Space kernelNodes (NPROC - p) root (mapStacks f stack p) s t
  taken : ∀ q < p, stack q ∈ L ∧ stack q ∉ t.free
  inj : ∀ q < p, ∀ r < p, stack q = stack r → q = r
  suffix : t.free <:+ L

section Stacks
variable {L : List Addr} {root : Addr} {stack : ℕ → Addr} {p : ℕ} {s : Kmem} {t : Pt}

theorem StacksMapped.push (h : StacksMapped L f root stack p s t) {pa : Addr} (hfree : t.free = pa :: l) {s' : Kmem}
    {t' : Pt} (hsuf : t'.free <:+ l)
    (hsp : Space kernelNodes (NPROC - (p + 1)) root (mapRange (mapStacks f stack p) (vpn (KSTACK p)) 1 pa
      (PTE_R ||| PTE_W)) s' t') :
    StacksMapped L f root (update stack p pa) (p + 1) s' t' := by
  have hmem : pa ∈ t.free := Pt.head_mem hfree
  have hnotin : pa ∉ t'.free := fun hm => h.space.kpt.head_notMem_tail hfree (hsuf.subset hm)
  have hsub : t'.free <:+ t.free := by
    rw [hfree]
    exact hsuf.trans (List.suffix_cons pa l)
  have hlt : ∀ {q}, q < p → update stack p pa q = stack q :=
    fun hq => update_of_ne (Nat.ne_of_lt hq) _ _
  have hself : update stack p pa p = pa := update_self _ _ _
  refine ⟨?_, ?_, ?_, hsub.trans h.suffix⟩
  · rw [mapStacks, hself, mapStacks_congr (fun q hq => hlt hq)]
    exact hsp
  · intro q hq
    rcases Nat.lt_succ_iff_lt_or_eq.mp hq with hq | rfl
    · rw [hlt hq]
      exact ⟨(h.taken q hq).1, fun hm => (h.taken q hq).2 (hsub.subset hm)⟩
    · rw [hself]
      exact ⟨h.suffix.subset hmem, hnotin⟩
  · intro q hq r hr he
    rcases Nat.lt_succ_iff_lt_or_eq.mp hq with hq | rfl <;> rcases Nat.lt_succ_iff_lt_or_eq.mp hr with hr | rfl
    · rw [hlt hq, hlt hr] at he
      exact h.inj q hq r hr he
    · rw [hlt hq, hself] at he
      exact absurd (he ▸ hmem) (h.taken q hq).2
    · rw [hself, hlt hr] at he
      exact absurd (he ▸ hmem) (h.taken r hr).2
    · rfl

theorem mapstack_step (hf : Unmapped f (2 ^ 26 - 512) 511) (hp : p < NPROC) (h : StacksMapped L f root stack p s t) :
    ∃ s' stack' t', mapstack root p s = some s' ∧ StacksMapped L f root stack' (p + 1) s' t' := by
  have hspace := h.space
  rw [show NPROC - p = NPROC - (p + 1) + 1 by omega] at hspace
  obtain ⟨pa, l, hfree, hk, h0, h1⟩ := hspace.kalloc_page
  have hv := vpn_KSTACK hp
  have hn := KSTACK_toNat hp
  have hal : Aligned (KSTACK p) := by
    unfold Aligned pageBytes
    omega
  have hlt : p < 64 := hp
  have hbelow : Unmapped (mapStacks f stack p) (vpn (KSTACK p)) 1 := by
    intro x hx hx'
    rw [mapStacks_below hp.le (by omega)]
    exact hf x (by omega) (by omega)
  have hmax : (KSTACK p).toNat + PGSIZE * 1 ≤ 2 ^ 38 := by
    unfold PGSIZE
    omega
  obtain ⟨s2, t2, hm, h2, hsuf⟩ := h1.kvmmap (KSTACK p) pa (BitVec.ofNat 64 PGSIZE) (PTE_R ||| PTE_W) hal
    page_toNat Nat.one_pos hmax (covers_top (by omega) (by omega)) hbelow
  refine ⟨s2, _, t2, ?_, h.push hfree hsuf h2⟩
  rw [mapstack, hk, if_neg h0]
  exact hm

theorem procMapstacks_spec (hf : Unmapped f (2 ^ 26 - 512) 511) (h : Space kernelNodes NPROC root f s t) :
    ∃ s' stack t', procMapstacks root s = some s' ∧ StacksMapped t.free f root stack NPROC s' t' := by
  have h0 : StacksMapped t.free f root (fun _ => 0) 0 s t :=
    ⟨h, fun q hq => absurd hq (Nat.not_lt_zero q), fun q hq => absurd hq (Nat.not_lt_zero q), List.suffix_refl _⟩
  obtain ⟨s', hl, stack, t', h'⟩ := forLoopM_induct (mapstack root)
    (fun p s' => ∃ stack t', StacksMapped t.free f root stack p s' t') 0 NPROC s ⟨_, _, h0⟩ (by
      rintro p s1 - hp ⟨stack, t1, h1⟩
      obtain ⟨s2, stack', t2, hm, h2⟩ := mapstack_step hf (by omega) h1
      exact ⟨s2, hm, stack', t2, h2⟩)
  rw [Nat.zero_add] at h'
  exact ⟨s', stack, t', hl, h'⟩

end Stacks

/-! ## `kvmmake` -/

theorem bind_of_some {α β : Type} {x : Option α} {a : α} (h : x = some a) {f : α → Option β} : (x >>= f) = f a := by
  rw [h]
  rfl

theorem aligned_of_mod {p : Addr} (h : p.toNat % 4096 = 0) : Aligned p := h

theorem kvmmake_fixed (ht : sym.TextFits) {root : Addr} {s : Kmem} {t : Pt}
    (h : Space kernelNodes k root (fun _ => 0) s t) :
    ∃ s' t', (∀ g : Kmem → Option (Addr × Kmem), (do
      let s ← kvmmap root UART0 UART0 (BitVec.ofNat 64 PGSIZE) (PTE_R ||| PTE_W) s
      let s ← kvmmap root VIRTIO0 VIRTIO0 (BitVec.ofNat 64 PGSIZE) (PTE_R ||| PTE_W) s
      let s ← kvmmap root PLIC PLIC 0x4000000#64 (PTE_R ||| PTE_W) s
      let s ← kvmmap root KERNBASE KERNBASE (sym.etext - KERNBASE) (PTE_R ||| PTE_X) s
      let s ← kvmmap root sym.etext sym.etext (PHYSTOP - sym.etext) (PTE_R ||| PTE_W) s
      let s ← kvmmap root TRAMPOLINE sym.trampoline (BitVec.ofNat 64 PGSIZE) (PTE_R ||| PTE_X) s
      g s) = g s') ∧ Space kernelNodes k root (fixedMap sym) s' t' ∧ t'.free <:+ t.free := by
  obtain ⟨e, he, he', hv, hn, hs1, hs2⟩ := ht.pages
  have hb := vpn_KERNBASE
  have hu := vpn_UART0
  have hvi := vpn_VIRTIO0
  have hpl := vpn_PLIC
  have htr := vpn_TRAMPOLINE
  have hz : ∀ v n, Unmapped (fun _ => 0) v n := fun _ _ _ _ _ => rfl
  obtain ⟨s1, t1, e1, h1, f1⟩ := h.kvmmap UART0 UART0 _ (PTE_R ||| PTE_W) (aligned_of_mod (by decide))
    page_toNat Nat.one_pos (by decide) (covers_devices (by omega) (by omega)) (hz _ _)
  obtain ⟨s2, t2, e2, h2, f2⟩ := h1.kvmmap VIRTIO0 VIRTIO0 _ (PTE_R ||| PTE_W)
    (aligned_of_mod (by decide)) page_toNat Nat.one_pos (by decide) (covers_devices (by omega) (by omega))
    ((hz _ _).mapRange (by omega))
  obtain ⟨s3, t3, e3, h3, f3⟩ := h2.kvmmap PLIC PLIC 0x4000000#64 (PTE_R ||| PTE_W) (n := 0x4000)
    (aligned_of_mod (by decide)) (by decide) (by decide) (by decide) (covers_devices (by omega) (by omega))
    (((hz _ _).mapRange (by omega)).mapRange (by omega))
  obtain ⟨s4, t4, e4, h4, f4⟩ := h3.kvmmap KERNBASE KERNBASE (sym.etext - KERNBASE) (PTE_R ||| PTE_X)
    (aligned_of_mod (by decide)) hs1 (by omega) (by rw [show KERNBASE.toNat = 0x81000000 from rfl]; unfold PGSIZE; omega)
    (covers_ram (by omega) (by omega))
    ((((hz _ _).mapRange (by omega)).mapRange (by omega)).mapRange (by omega))
  obtain ⟨s5, t5, e5, h5, f5⟩ := h4.kvmmap sym.etext sym.etext (PHYSTOP - sym.etext) (PTE_R ||| PTE_W)
    ht.aligned hs2 (by omega) (by rw [hn]; unfold PGSIZE; omega) (covers_ram (by omega) (by omega))
    (((((hz _ _).mapRange (by omega)).mapRange (by omega)).mapRange (by omega)).mapRange (by omega))
  obtain ⟨s6, t6, e6, h6, f6⟩ := h5.kvmmap TRAMPOLINE sym.trampoline _ (PTE_R ||| PTE_X)
    (aligned_of_mod (by decide)) page_toNat Nat.one_pos (by decide) (covers_top (by omega) (by omega))
    ((((((hz _ _).mapRange (by omega)).mapRange (by omega)).mapRange (by omega)).mapRange (by omega)).mapRange (by omega))
  have hd1 : (sym.etext - KERNBASE).toNat / PGSIZE = e - 0x81000 := by
    rw [hs1]
    exact Nat.mul_div_cancel_left _ (by decide)
  have hd2 : (PHYSTOP - sym.etext).toNat / PGSIZE = 0x89000 - e := by
    rw [hs2]
    exact Nat.mul_div_cancel_left _ (by decide)
  refine ⟨s6, t6, ?_, ?_, f6.trans (f5.trans (f4.trans (f3.trans (f2.trans f1))))⟩
  · intro g
    refine (bind_of_some e1).trans ((bind_of_some e2).trans ?_)
    refine (bind_of_some e3).trans ((bind_of_some e4).trans ?_)
    exact (bind_of_some e5).trans (bind_of_some e6)
  · rw [fixedMap, hd1, hd2]
    exact h6

theorem kvmmake_spec (ht : sym.TextFits) {s : Kmem} (hpool : Pool s.mem s.freelist l)
    (hlow : ∀ p ∈ l, p.toNat < 2 ^ 56) (hlen : 166 ≤ l.length) :
    ∃ root s' t stack, kvmmake sym s = some (root, s') ∧
      Space kernelNodes 0 root (kernelMap sym stack) s' t ∧ (∀ p < NPROC, stack p ∈ l) ∧
      ∀ p < NPROC, ∀ q < NPROC, stack p = stack q → p = q := by
  cases l with
  | nil => exact absurd hlen (by simp)
  | cons p l =>
    have hcard := kernelNodes_card_le
    have hroom : kernelNodes.card + NPROC ≤ l.length + 1 := by
      rw [List.length_cons] at hlen
      unfold NPROC
      omega
    obtain ⟨hk, -, -, -⟩ := kalloc_cons hpool
    have h0 := Space.new hpool hlow root_mem_kernelNodes hroom
    obtain ⟨s1, t1, hfixed, h1, f1⟩ := kvmmake_fixed ht h0
    have hgap : Unmapped (fixedMap sym) (2 ^ 26 - 512) 511 :=
      fun x hx hx' => fixedMap_gap ht (by omega)
    obtain ⟨s2, stack, t2, hst, h2⟩ := procMapstacks_spec hgap h1
    have hmem : ∀ q < NPROC, stack q ∈ p :: l :=
      fun q hq => List.mem_cons_of_mem _ (f1.subset (h2.taken q hq).1)
    refine ⟨p, s2, t2, stack, ?_, h2.space, hmem, h2.inj⟩
    unfold kvmmake
    dsimp only
    rw [hk]
    exact (hfixed _).trans (bind_of_some hst)

/-! ## The stack `main` runs on -/

def MappedRW (kpgtbl : Addr) (s : Kmem) (va : Addr) : Prop :=
  ∃ pte s', walk kpgtbl va false s = some (pte, s') ∧ pte ≠ 0 ∧ load 64 s'.mem pte &&& PTE_V ≠ 0 ∧
    load 64 s'.mem pte &&& PTE_R ≠ 0 ∧ load 64 s'.mem pte &&& PTE_W ≠ 0 ∧
    off (PTE2PA (load 64 s'.mem pte)) (va.toNat % PGSIZE) = va

def bootStackByte (hart : Fin Layout.NCPU) (k : ℕ) : Addr := off Layout.blStack (4096 * hart + k)

theorem vpn_bootStack (hart : Fin Layout.NCPU) (hk : k < 4096) :
    bootStackByte hart k < MAXVA ∧ 0x80000 ≤ vpn (bootStackByte hart k) ∧ vpn (bootStackByte hart k) < 0x81000 := by
  have hh : (hart : ℕ) < 8 := hart.isLt
  have hb : Layout.blStack.toNat = 0x80000c90 := rfl
  have hn : (bootStackByte hart k).toNat = 0x80000c90 + (4096 * hart + k) := off_toNat _ _ (by omega)
  rw [BitVec.lt_def, MAXVA_toNat, vpn, hn]
  omega

theorem kernelMap_bootStack (ht : sym.TextFits) (stack : ℕ → Addr) (hart : Fin Layout.NCPU)
    (hk : k < 4096) : kernelMap sym stack (vpn (bootStackByte hart k)) = 0 := by
  obtain ⟨-, hlo, hhi⟩ := vpn_bootStack hart hk
  rw [kernelMap, mapStacks_below le_rfl (by unfold NPROC; omega)]
  exact fixedMap_gap ht (by omega)

theorem Space.not_mappedRW {root : Addr} {s : Kmem} {t : Pt} (h : Space S k root f s t)
    {va : Addr} (hva : va < MAXVA) (h0 : f (vpn va) = 0) : ¬ MappedRW root s va := by
  obtain ⟨pte, hw, hmap⟩ := h.walk_lookup hva
  rintro ⟨pte', s1, hw', hne, hv, -⟩
  rw [hw, Option.some.injEq, Prod.mk.injEq] at hw'
  obtain ⟨rfl, rfl⟩ := hw'
  rw [h0, if_neg hne] at hmap
  rw [← hmap] at hv
  exact zero_invalid hv

theorem kvmmake_stack_unmapped {sym : Symbols} (ht : sym.TextFits) {s : Kmem} {l : List Addr}
    (hpool : Pool s.mem s.freelist l) (hlow : ∀ p ∈ l, p.toNat < 2 ^ 56) (hlen : 166 ≤ l.length) :
    ∃ kpgtbl s', kvmmake sym s = some (kpgtbl, s') ∧
      ∀ (hart : Fin Layout.NCPU), ∀ k < 4096, ¬ MappedRW kpgtbl s' (bootStackByte hart k) := by
  obtain ⟨root, s', t, stack, hmake, hsp, -, -⟩ := kvmmake_spec ht hpool hlow hlen
  refine ⟨root, s', hmake, fun hart k hk => ?_⟩
  exact hsp.not_mappedRW (vpn_bootStack hart hk).1 (kernelMap_bootStack ht stack hart hk)

theorem linked_freePages_low : ∀ p ∈ freePages linked (freeCount linked), p.toNat < 2 ^ 56 := by
  intro p hp
  obtain ⟨i, hi, rfl⟩ := mem_freePages.mp hp
  have hcount : freeCount linked = 32743 := by decide
  have hbase : (freeBase linked).toNat = 0x81019000 := by decide
  rw [freePage_toNat hi, hbase]
  unfold PGSIZE
  omega

theorem linked_freePages_length : 166 ≤ (freePages linked (freeCount linked)).length := by
  rw [freePages_length]
  decide

/-- With the free list `kinit` makes. -/
theorem linked_stack_unmapped : ∃ s kpgtbl s', kinit linked ⟨bootedMem, 0⟩ = some s ∧
    kvmmake linked s = some (kpgtbl, s') ∧
    ∀ (hart : Fin Layout.NCPU), ∀ k < 4096, ¬ MappedRW kpgtbl s' (bootStackByte hart k) := by
  obtain ⟨s, hs, hpool, -⟩ := kinit_pool linked_fits ⟨bootedMem, 0⟩ rfl
  obtain ⟨kpgtbl, s', hmake, hun⟩ := kvmmake_stack_unmapped linked_textFits hpool linked_freePages_low
    linked_freePages_length
  exact ⟨s, kpgtbl, s', hs, hmake, hun⟩

theorem linked_bootStack_lost : ∃ s kpgtbl s', kinit linked ⟨bootedMem, 0⟩ = some s ∧
    kvmmake linked s = some (kpgtbl, s') ∧ ¬ MappedRW kpgtbl s' (bootStackByte 0 4095) := by
  obtain ⟨s, hs, hpool, -⟩ := kinit_pool linked_fits ⟨bootedMem, 0⟩ rfl
  obtain ⟨root, s', t, stack, hmake, hsp, -, -⟩ := kvmmake_spec linked_textFits hpool linked_freePages_low
    linked_freePages_length
  refine ⟨s, root, s', hs, hmake, ?_⟩
  exact hsp.not_mappedRW (vpn_bootStack 0 (by norm_num)).1 (kernelMap_bootStack linked_textFits stack 0 (by norm_num))

end Xv6Boot.Kernel
