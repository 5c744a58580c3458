import Xv6Boot.Kernel.KernelSpace
import Xv6Boot.Kernel.TableMap

/-! # What the kernel's page table maps

The map that `kvmmake` builds, as a relation: which page a virtual page has, with which permissions. The properties of the
address space are read off its constructors.
-/

namespace Xv6Boot.Kernel
open ByteMemory Pages
open ProcTable (NPROC)

variable {sym : Symbols} {stack : ℕ → Addr} {x v : ℕ} {pa pa' va va' : Addr} {perm perm' f : BitVec 64}

/-- How `kernel.ld` places the trampoline, the end of the text and the end of the kernel. -/
structure Symbols.Placed (sym : Symbols) : Prop extends sym.TextFits where
  trampoline : sym.trampoline.toNat + PGSIZE = sym.etext.toNat
  etext_le : sym.etext ≤ sym.endAddr

theorem linked_placed : linked.Placed := ⟨linked_textFits, by decide, by decide⟩

/-- Virtual page `x` is mapped to `pa`. -/
inductive Maps (sym : Symbols) (stack : ℕ → Addr) : ℕ → Addr → BitVec 64 → Prop
  | device {x : ℕ} : 0xc000 ≤ x → x < 0x10002 → Maps sym stack x (BitVec.ofNat 64 (4096 * x)) (PTE_R ||| PTE_W)
  | text {x : ℕ} : 0x81000 ≤ x → x < vpn sym.etext → Maps sym stack x (BitVec.ofNat 64 (4096 * x)) (PTE_R ||| PTE_X)
  | data {x : ℕ} : vpn sym.etext ≤ x → x < 0x89000 → Maps sym stack x (BitVec.ofNat 64 (4096 * x)) (PTE_R ||| PTE_W)
  | trampoline : Maps sym stack (vpn TRAMPOLINE) sym.trampoline (PTE_R ||| PTE_X)
  | stack {p : ℕ} : p < NPROC → Maps sym stack (vpn (KSTACK p)) (stack p) (PTE_R ||| PTE_W)

/-! ## The map of `kvmmake` -/

theorem off_page (hp : pa.toNat = 4096 * v) (hx : v ≤ x) : off pa (PGSIZE * (x - v)) = BitVec.ofNat 64 (4096 * x) := by
  apply BitVec.eq_of_toNat_eq
  rw [off, BitVec.toNat_add, BitVec.toNat_ofNat, BitVec.toNat_ofNat, hp, Nat.add_mod_mod]
  unfold PGSIZE
  congr 1
  omega

theorem mapStacks_stack {g : ℕ → BitVec 64} {n p : ℕ} (hn : n ≤ NPROC) (hp : p < n) :
    mapStacks g stack n (vpn (KSTACK p)) = PA2PTE (stack p) ||| (PTE_R ||| PTE_W) ||| PTE_V := by
  induction n with
  | zero => exact absurd hp (Nat.not_lt_zero p)
  | succ n ih =>
    have hv := vpn_KSTACK (show n < NPROC by omega)
    have hv' := vpn_KSTACK (show p < NPROC by omega)
    have hN : NPROC = 64 := rfl
    rw [mapStacks]
    rcases Nat.lt_succ_iff_lt_or_eq.mp hp with hlt | rfl
    · rw [mapRange_of_not_mem (by omega)]
      exact ih (by omega) hlt
    · rw [mapRange_of_mem le_rfl (Nat.lt_succ_self _), Nat.sub_self, Nat.mul_zero, off_zero]

theorem mapStacks_other {g : ℕ → BitVec 64} {n : ℕ} (hx : ∀ p < n, x ≠ vpn (KSTACK p)) : mapStacks g stack n x = g x := by
  induction n with
  | zero => rfl
  | succ n ih =>
    have hne := hx n (Nat.lt_succ_self n)
    rw [mapStacks, mapRange_of_not_mem (by omega)]
    exact ih fun p hp => hx p (Nat.lt_succ_of_lt hp)

section Map
variable (ht : sym.TextFits)
include ht

theorem fixedMap_device (h : 0xc000 ≤ x) (h' : x < 0x10002) :
    fixedMap sym x = PA2PTE (BitVec.ofNat 64 (4096 * x)) ||| (PTE_R ||| PTE_W) ||| PTE_V := by
  obtain ⟨e, he, he', hv, -⟩ := ht.pages
  rw [fixedMap_eq ht, mapRange_of_not_mem (by omega), mapRange_of_not_mem (by omega), mapRange_of_not_mem (by omega)]
  by_cases h1 : x < 0x10000
  · rw [mapRange_of_mem h (by omega), off_page rfl h]
  · rw [mapRange_of_not_mem (by omega)]
    by_cases h2 : x = 0x10000
    · rw [mapRange_of_not_mem (by omega), mapRange_of_mem (by omega) (by omega), off_page rfl (by omega)]
    · rw [mapRange_of_mem (by omega) (by omega), off_page rfl (by omega)]

theorem fixedMap_text (h : 0x81000 ≤ x) (h' : x < vpn sym.etext) :
    fixedMap sym x = PA2PTE (BitVec.ofNat 64 (4096 * x)) ||| (PTE_R ||| PTE_X) ||| PTE_V := by
  obtain ⟨e, he, he', hv, -⟩ := ht.pages
  rw [fixedMap_eq ht, mapRange_of_not_mem (by omega), mapRange_of_not_mem (by omega), mapRange_of_mem h (by omega),
    off_page rfl h]

theorem fixedMap_data (h : vpn sym.etext ≤ x) (h' : x < 0x89000) :
    fixedMap sym x = PA2PTE (BitVec.ofNat 64 (4096 * x)) ||| (PTE_R ||| PTE_W) ||| PTE_V := by
  obtain ⟨e, he, he', hv, hn, -⟩ := ht.pages
  rw [fixedMap_eq ht, mapRange_of_not_mem (by omega), mapRange_of_mem h (by omega), off_page (by rw [hn, hv]; rfl) h]

theorem fixedMap_trampoline :
    fixedMap sym (vpn TRAMPOLINE) = PA2PTE sym.trampoline ||| (PTE_R ||| PTE_X) ||| PTE_V := by
  rw [fixedMap_eq ht, vpn_TRAMPOLINE, mapRange_of_mem le_rfl (by omega), Nat.sub_self, Nat.mul_zero, off_zero]

theorem kernelMap_of_maps (h : Maps sym stack x pa perm) : kernelMap sym stack x = PA2PTE pa ||| perm ||| PTE_V := by
  obtain ⟨e, he, he', hv, -⟩ := ht.pages
  have hN : NPROC = 64 := rfl
  -- the stacks are above everything but the trampoline
  have hlow : ∀ x, x < 0x89000 → kernelMap sym stack x = fixedMap sym x := fun x hx =>
    mapStacks_below le_rfl (by omega)
  cases h with
  | device h h' => rw [hlow x (by omega), fixedMap_device ht h h']
  | text h h' => rw [hlow x (by omega), fixedMap_text ht h h']
  | data h h' => rw [hlow x h', fixedMap_data ht h h']
  | trampoline =>
    rw [kernelMap, mapStacks_other, fixedMap_trampoline ht]
    intro p hp
    rw [vpn_TRAMPOLINE, vpn_KSTACK hp]
    omega
  | stack hp => exact mapStacks_stack le_rfl hp

theorem kernelMap_of_not (h : ∀ pa perm, ¬ Maps sym stack x pa perm) : kernelMap sym stack x = 0 := by
  obtain ⟨e, he, he', hv, -⟩ := ht.pages
  have hdevice : ¬ (0xc000 ≤ x ∧ x < 0x10002) := fun hx => h _ _ (.device hx.1 hx.2)
  have htext : ¬ (0x81000 ≤ x ∧ x < vpn sym.etext) := fun hx => h _ _ (.text hx.1 hx.2)
  have hdata : ¬ (vpn sym.etext ≤ x ∧ x < 0x89000) := fun hx => h _ _ (.data hx.1 hx.2)
  have htop : x ≠ 2 ^ 26 - 1 := by
    intro hx
    rw [← vpn_TRAMPOLINE] at hx
    exact h _ _ (hx ▸ Maps.trampoline)
  have hstack : ∀ p < NPROC, x ≠ vpn (KSTACK p) := by
    rintro p hp rfl
    exact h _ _ (.stack hp)
  rw [kernelMap, mapStacks_other hstack, fixedMap_eq ht, mapRange_of_not_mem (by omega), mapRange_of_not_mem (by omega),
    mapRange_of_not_mem (by omega), mapRange_of_not_mem (by omega), mapRange_of_not_mem (by omega),
    mapRange_of_not_mem (by omega)]

end Map

/-! ## The address space -/

def InRegion (base : Addr) (n : ℕ) (va : Addr) : Prop := base.toNat ≤ va.toNat ∧ va.toNat < base.toNat + n

def Direct (va : Addr) : Prop :=
  InRegion UART0 PGSIZE va ∨ InRegion VIRTIO0 PGSIZE va ∨ InRegion PLIC 0x4000000 va ∨ (KERNBASE ≤ va ∧ va < PHYSTOP)

def KernelVa (va : Addr) : Prop :=
  Direct va ∨ InRegion TRAMPOLINE PGSIZE va ∨ ∃ p < NPROC, InRegion (KSTACK p) PGSIZE va

theorem inRegion_page {base : Addr} (hb : base.toNat = 4096 * v) : InRegion base PGSIZE va ↔ vpn va = v := by
  unfold InRegion vpn PGSIZE
  omega

theorem direct_iff : Direct va ↔ (0xc000 ≤ vpn va ∧ vpn va < 0x10002) ∨ (0x81000 ≤ vpn va ∧ vpn va < 0x89000) := by
  unfold Direct
  rw [inRegion_page (v := 0x10000) rfl, inRegion_page (v := 0x10001) rfl, BitVec.le_def, BitVec.lt_def]
  unfold InRegion vpn
  rw [show PLIC.toNat = 0xc000000 from rfl, show KERNBASE.toNat = 0x81000000 from rfl,
    show PHYSTOP.toNat = 0x89000000 by decide]
  omega

theorem Maps.direct (h : Direct va) : ∃ perm, Maps sym stack (vpn va) (BitVec.ofNat 64 (4096 * vpn va)) perm := by
  rcases direct_iff.mp h with ⟨h1, h2⟩ | ⟨h1, h2⟩
  · exact ⟨_, .device h1 h2⟩
  · by_cases hx : vpn va < vpn sym.etext
    · exact ⟨_, .text h1 hx⟩
    · exact ⟨_, .data (Nat.not_lt.mp hx) h2⟩

theorem maps_iff (ht : sym.TextFits) : (∃ pa perm, Maps sym stack (vpn va) pa perm) ↔ KernelVa va := by
  obtain ⟨e, he, he', hv, -⟩ := ht.pages
  have hstack : ∀ p < NPROC, InRegion (KSTACK p) PGSIZE va ↔ vpn va = vpn (KSTACK p) := by
    intro p hp
    refine inRegion_page ?_
    rw [vpn_KSTACK hp, KSTACK_toNat hp]
    unfold NPROC at hp
    omega
  have htop : InRegion TRAMPOLINE PGSIZE va ↔ vpn va = vpn TRAMPOLINE := inRegion_page (by decide)
  constructor
  · rintro ⟨pa, perm, h⟩
    generalize hx : vpn va = x at h
    cases h with
    | device h1 h2 => exact Or.inl (direct_iff.mpr (by omega))
    | text h1 h2 => exact Or.inl (direct_iff.mpr (by omega))
    | data h1 h2 => exact Or.inl (direct_iff.mpr (by omega))
    | trampoline => exact Or.inr (Or.inl (htop.mpr hx))
    | stack hp => exact Or.inr (Or.inr ⟨_, hp, (hstack _ hp).mpr hx⟩)
  · rintro (h | h | ⟨p, hp, h⟩)
    · obtain ⟨perm, hm⟩ := Maps.direct h
      exact ⟨_, perm, hm⟩
    · rw [htop.mp h]
      exact ⟨_, _, .trampoline⟩
    · rw [(hstack p hp).mp h]
      exact ⟨_, _, .stack hp⟩

/-! ## Permissions and pages -/

theorem Maps.perm_eq (h : Maps sym stack x pa perm) : perm = PTE_R ||| PTE_W ∨ perm = PTE_R ||| PTE_X := by
  cases h with
  | device | data | stack => exact Or.inl rfl
  | text | trampoline => exact Or.inr rfl

theorem flag_of_entry (hf : 0x3ff &&& f = f) (hp : perm.toNat < 1024) :
    (PA2PTE pa ||| perm ||| PTE_V) &&& f = (perm ||| PTE_V) &&& f := by
  rw [← hf, ← BitVec.and_assoc, ← BitVec.and_assoc, BitVec.or_assoc]
  change PTE_FLAGS (PA2PTE pa ||| (perm ||| PTE_V)) &&& f = PTE_FLAGS (perm ||| PTE_V) &&& f
  have hzero : PA2PTE (0 : Addr) ||| (perm ||| PTE_V) = perm ||| PTE_V := BitVec.zero_or
  have hflags := PTE_FLAGS_PA2PTE_or (0 : Addr) (or_PTE_V_lt hp)
  rw [hzero] at hflags
  rw [PTE_FLAGS_PA2PTE_or _ (or_PTE_V_lt hp), hflags]

theorem Maps.perm_lt (h : Maps sym stack x pa perm) : perm.toNat < 1024 := by
  rcases h.perm_eq with rfl | rfl <;> decide

section Pages
variable (ht : sym.Placed) (hstack : ∀ p < NPROC, IsPage sym (stack p))
include ht hstack

theorem Maps.aligned (h : Maps sym stack x pa perm) : Aligned pa := by
  have htr := ht.trampoline
  have hal : sym.etext.toNat % 4096 = 0 := ht.aligned
  unfold PGSIZE at htr
  unfold Aligned pageBytes
  cases h with
  | device | text | data =>
    rw [BitVec.toNat_ofNat]
    omega
  | trampoline => omega
  | stack hp => exact (hstack _ hp).aligned

theorem Maps.executable (h : Maps sym stack x pa perm) :
    if perm &&& PTE_X ≠ 0 then KERNBASE ≤ pa ∧ pa < sym.etext ∧ perm &&& PTE_W = 0
    else pa < KERNBASE ∨ sym.etext ≤ pa := by
  obtain ⟨e, he, he', hv, hn, -⟩ := ht.pages
  have htr := ht.trampoline
  have hend := BitVec.le_def.mp ht.etext_le
  have hk : KERNBASE.toNat = 0x81000000 := rfl
  unfold PGSIZE at htr hn
  cases h with
  | device h1 h2 =>
    rw [if_neg (by decide)]
    refine Or.inl (BitVec.lt_def.mpr ?_)
    rw [BitVec.toNat_ofNat]
    omega
  | text h1 h2 =>
    rw [if_pos (by decide)]
    refine ⟨BitVec.le_def.mpr ?_, BitVec.lt_def.mpr ?_, by decide⟩ <;> rw [BitVec.toNat_ofNat] <;> omega
  | data h1 h2 =>
    rw [if_neg (by decide)]
    refine Or.inr (BitVec.le_def.mpr ?_)
    rw [BitVec.toNat_ofNat]
    omega
  | trampoline =>
    rw [if_pos (by decide)]
    exact ⟨BitVec.le_def.mpr (by omega), BitVec.lt_def.mpr (by omega), by decide⟩
  | stack hp =>
    rw [if_neg (by decide)]
    have hge := BitVec.le_def.mp (hstack _ hp).ge_end
    exact Or.inr (BitVec.le_def.mpr (by omega))

theorem Maps.exclusive {x' : ℕ} (h : Maps sym stack x pa perm) (h' : Maps sym stack x' pa perm')
    (hw : (perm ||| PTE_V) &&& PTE_W ≠ 0) (hx : (perm' ||| PTE_V) &&& PTE_X ≠ 0) : False := by
  have hW : perm = PTE_R ||| PTE_W := by
    rcases h.perm_eq with rfl | rfl
    · rfl
    · exact absurd rfl hw
  have hX : perm' = PTE_R ||| PTE_X := by
    rcases h'.perm_eq with rfl | rfl
    · exact absurd rfl hx
    · rfl
  have he := h.executable ht hstack
  have he' := h'.executable ht hstack
  rw [hW, if_neg (by decide)] at he
  rw [hX, if_pos (by decide)] at he'
  rcases he with he | he
  · exact absurd he'.1 (BitVec.not_le.mpr he)
  · exact absurd he'.2.1 (BitVec.not_lt.mpr he)

end Pages

/-! ## `kvmmake` -/

/-- What holds of the kernel's page table, through `walk`. -/
structure KernelTable (sym : Symbols) (root : Addr) (s : Kmem) : Prop where
  mapped : ∀ va < MAXVA, entry root va s &&& PTE_V ≠ 0 ↔ KernelVa va
  direct : ∀ va < MAXVA, Direct va → PTE2PA (entry root va s) = BitVec.ofNat 64 (PGSIZE * (va.toNat / PGSIZE))
  trampoline : PTE2PA (entry root TRAMPOLINE s) = sym.trampoline
  guard : ∀ p < NPROC, entry root (KSTACK p - BitVec.ofNat 64 PGSIZE) s &&& PTE_V = 0
  kstack : ∀ p < NPROC, ∀ q < NPROC, PTE2PA (entry root (KSTACK p) s) = PTE2PA (entry root (KSTACK q) s) → p = q
  user : ∀ va < MAXVA, entry root va s &&& PTE_U = 0
  exclusive : ∀ va < MAXVA, ∀ va' < MAXVA, entry root va s &&& PTE_V ≠ 0 → entry root va' s &&& PTE_V ≠ 0 →
    entry root va s &&& PTE_W ≠ 0 → entry root va' s &&& PTE_X ≠ 0 → PTE2PA (entry root va s) ≠ PTE2PA (entry root va' s)

theorem KSTACK_lt {p : ℕ} (hp : p < NPROC) : KSTACK p < MAXVA := by
  rw [lt_MAXVA_iff, vpn_KSTACK hp]
  unfold NPROC at hp
  omega

theorem below_KSTACK {p : ℕ} (hp : p < NPROC) :
    KSTACK p - BitVec.ofNat 64 PGSIZE < MAXVA ∧ ¬ KernelVa (KSTACK p - BitVec.ofNat 64 PGSIZE) := by
  have hN : NPROC = 64 := rfl
  have hn := KSTACK_toNat hp
  have hpg : (BitVec.ofNat 64 PGSIZE).toNat = 4096 := rfl
  have hle : BitVec.ofNat 64 PGSIZE ≤ KSTACK p := BitVec.le_def.mpr (by omega)
  have hsub : (KSTACK p - BitVec.ofNat 64 PGSIZE).toNat = 2 ^ 38 - 8192 * (p + 2) := by
    rw [BitVec.toNat_sub_of_le hle]
    omega
  have hvpn : vpn (KSTACK p - BitVec.ofNat 64 PGSIZE) = 2 ^ 26 - 2 * (p + 2) := by
    rw [vpn, hsub]
    omega
  refine ⟨lt_MAXVA_iff.mpr (by omega), ?_⟩
  rintro (h | h | ⟨q, hq, h⟩)
  · have := direct_iff.mp h
    omega
  · unfold InRegion at h
    rw [hsub, show TRAMPOLINE.toNat = 2 ^ 38 - 4096 by decide] at h
    omega
  · unfold InRegion at h
    rw [hsub, KSTACK_toNat hq] at h
    unfold PGSIZE at h
    omega

/-- **The kernel's address space.** `kvmmake` takes 102 pages for the table and one for each stack. -/
theorem kvmmake_address_space (ht : sym.Placed) {s : Kmem} {l : List Addr} (hpool : Pool s.mem s.freelist l)
    (hl : ∀ p ∈ l, IsPage sym p) (hlen : 102 + NPROC ≤ l.length) :
    ∃ root s', kvmmake sym s = some (root, s') ∧ KernelTable sym root s' := by
  obtain ⟨root, s', t, stack, hrun, hsp, hmem, hinj⟩ := kvmmake_spec ht.toTextFits hpool (fun p hp => (hl p hp).low) hlen
  have hstack : ∀ p < NPROC, IsPage sym (stack p) := fun p hp => hl _ (hmem p hp)
  have hentry : ∀ va < MAXVA, entry root va s' = kernelMap sym stack (vpn va) := by
    intro va hva
    rw [← hsp.root_addr, hsp.kpt.entry_eq hva, hsp.map]
  have hmaps : ∀ {va pa perm}, va < MAXVA → Maps sym stack (vpn va) pa perm →
      entry root va s' = PA2PTE pa ||| perm ||| PTE_V ∧ PTE2PA (entry root va s') = pa := by
    intro va pa perm hva h
    have he := (hentry va hva).trans (kernelMap_of_maps ht.toTextFits h)
    refine ⟨he, ?_⟩
    rw [he, BitVec.or_assoc, PTE2PA_PA2PTE_or (h.aligned ht hstack) (or_PTE_V_lt h.perm_lt)]
  have hnone : ∀ va < MAXVA, ¬ KernelVa va → entry root va s' = 0 := by
    intro va hva h
    refine (hentry va hva).trans (kernelMap_of_not ht.toTextFits fun pa perm hm => h ?_)
    exact (maps_iff ht.toTextFits).mp ⟨pa, perm, hm⟩
  have hvalid : ∀ va < MAXVA, entry root va s' &&& PTE_V ≠ 0 ↔ KernelVa va := by
    intro va hva
    constructor
    · intro hv
      by_contra h
      exact hv (by rw [hnone va hva h]; rfl)
    · intro h
      obtain ⟨pa, perm, hm⟩ := (maps_iff ht.toTextFits).mpr h
      rw [(hmaps hva hm).1]
      exact or_PTE_V_valid _
  have hget : ∀ va < MAXVA, entry root va s' &&& PTE_V ≠ 0 → ∃ pa perm, Maps sym stack (vpn va) pa perm := fun va hva hv =>
    (maps_iff ht.toTextFits).mpr ((hvalid va hva).mp hv)
  refine ⟨root, s', hrun, hvalid, ?_, ?_, ?_, ?_, ?_, ?_⟩
  · intro va hva h
    obtain ⟨perm, hm⟩ := Maps.direct h
    exact (hmaps hva hm).2
  · exact (hmaps (by decide) Maps.trampoline).2
  · intro p hp
    obtain ⟨hlt, hno⟩ := below_KSTACK hp
    rw [hnone _ hlt hno, zero_and_PTE_V]
  · intro p hp q hq he
    rw [(hmaps (KSTACK_lt hp) (Maps.stack hp)).2, (hmaps (KSTACK_lt hq) (Maps.stack hq)).2] at he
    exact hinj p hp q hq he
  · intro va hva
    by_cases hv : entry root va s' &&& PTE_V ≠ 0
    · obtain ⟨pa, perm, hm⟩ := hget va hva hv
      rw [(hmaps hva hm).1, flag_of_entry rfl hm.perm_lt]
      rcases hm.perm_eq with rfl | rfl <;> rfl
    · rw [hnone va hva fun h => hv ((hvalid va hva).mpr h)]
      rfl
  · intro va hva va' hva' hv hv' hw hx he
    obtain ⟨pa, perm, hm⟩ := hget va hva hv
    obtain ⟨pa', perm', hm'⟩ := hget va' hva' hv'
    rw [(hmaps hva hm).2, (hmaps hva' hm').2] at he
    rw [(hmaps hva hm).1, flag_of_entry rfl hm.perm_lt] at hw
    rw [(hmaps hva' hm').1, flag_of_entry rfl hm'.perm_lt] at hx
    subst he
    exact hm.exclusive ht hstack hm' hw hx

theorem linked_address_space : ∃ s root s', kinit linked ⟨bootedMem, 0⟩ = some s ∧ kvmmake linked s = some (root, s') ∧
    KernelTable linked root s' := by
  obtain ⟨s, hinit, hpool, _⟩ := kinit_pool linked_fits ⟨bootedMem, 0⟩ rfl
  obtain ⟨root, s', hrun, htable⟩ := kvmmake_address_space linked_placed hpool (fun p hp => by
    obtain ⟨i, hi, rfl⟩ := mem_freePages.mp hp
    exact freePage_isPage linked_fits hi) linked_freePages_length
  exact ⟨s, root, s', hinit, hrun, htable⟩

end Xv6Boot.Kernel
