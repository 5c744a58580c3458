import Xv6Boot.Kernel.ProcPagetable
import Xv6Boot.Kernel.Sbrk
import Xv6Boot.Kernel.UserCopy

/-! # The image of a process

What the page table of a process keeps while pages are added to it, while others use memory, and what
`proc_freepagetable` gives back. Several tables stand over one free list; a table is carried along when pages that are
not its own change.
-/

namespace Xv6Boot.Kernel
open Function ByteMemory Loop StringC Pages

variable {sym : Symbols} {s s₁ s' : Kmem} {t t₁ t' : Pt} {root p va trapframe : Addr} {l : List Addr} {v k n i : ℕ}
  {sz oldsz newsz xperm : BitVec 64} {fl : ℕ → BitVec 64} {b : ℕ → ℕ → Byte}

/-! ## Freeing -/

section
variable (h : Image sym trapframe root s t n)
include h

theorem isLeaf_trampoline : IsLeaf (lookup s.mem t (vpn TRAMPOLINE)) := by
  rw [h.trampoline]
  exact isLeaf_of_flags _ (by decide) (by decide)

theorem isLeaf_trapframe : IsLeaf (lookup s.mem t (vpn TRAPFRAME)) := by
  rw [h.trapframe]
  exact isLeaf_of_flags _ (by decide) (by decide)

theorem Image.unmap_fixed (hsym : sym.Fits) (hn : n ≤ vpn TRAPFRAME) :
    ∃ s₁ s₂, uvmunmap sym root TRAMPOLINE 1 false s = some s₁ ∧ uvmunmap sym root TRAPFRAME 1 false s₁ = some s₂ ∧
      Step s t s₂ t ∧ (∀ v < n, lookup s₂.mem t v = lookup s.mem t v) ∧
      ∀ v, n ≤ v → lookup s₂.mem t v &&& PTE_V = 0 := by
  have hroot := h.root
  subst hroot
  obtain ⟨s₁, hrun₁, hstep₁, hmap₁⟩ := h.kpt.unmap_one hsym aligned_TRAMPOLINE (by decide) (isLeaf_trampoline h)
  have hleaf : IsLeaf (lookup s₁.mem t (vpn TRAPFRAME)) := by
    rw [hmap₁, update_of_ne (by decide)]
    exact isLeaf_trapframe h
  obtain ⟨s₂, hrun₂, hstep₂, hmap₂⟩ := hstep₁.kpt.unmap_one hsym aligned_TRAPFRAME (by decide) hleaf
  refine ⟨s₁, s₂, hrun₁, hrun₂, hstep₁.trans hstep₂, fun v hv => ?_, fun v hv => ?_⟩
  · have h₁ : v ≠ vpn TRAPFRAME := by omega
    have h₂ : v ≠ vpn TRAMPOLINE := by
      rw [vpn_TRAPFRAME] at hn
      rw [vpn_TRAMPOLINE]
      omega
    rw [hmap₂, update_of_ne h₁, hmap₁, update_of_ne h₂]
  · rw [hmap₂, update_apply]
    split
    · rfl
    · next h₁ =>
      rw [hmap₁, update_apply]
      split
      · rfl
      · next h₂ =>
        rw [vpn_TRAPFRAME] at h₁
        rw [vpn_TRAMPOLINE] at h₂
        by_cases hv' : v < vpn TRAPFRAME
        · exact h.unmapped v hv hv'
        · rw [vpn_TRAPFRAME] at hv'
          exact h.top v (by omega)

theorem Image.le_trapframe : n ≤ vpn TRAPFRAME := by
  have := h.bound
  rw [vpn_TRAPFRAME]
  omega

end

theorem uvmfree_pos {sz : BitVec 64} (hpos : 0 < sz) (root : Addr) (s : Kmem) :
    uvmfree sym root sz s =
      (uvmunmap sym root 0 (PGROUNDUP sz / BitVec.ofNat 64 PGSIZE) true s).bind (freewalk sym 3 root) := by
  rw [uvmfree, if_pos hpos]
  rfl

theorem PGROUNDUP_div (h : sz.toNat ≤ 0x89000000) :
    PGROUNDUP sz / BitVec.ofNat 64 PGSIZE = BitVec.ofNat 64 (pagesOf sz) := by
  apply BitVec.eq_of_toNat_eq
  rw [BitVec.toNat_udiv, PGROUNDUP_toNat (by omega), show (BitVec.ofNat 64 PGSIZE).toNat = 4096 from rfl,
    BitVec.toNat_ofNat, pagesOf]
  omega

theorem Pt.give_leafPages (s : Kmem) (t : Pt) (n : ℕ) : (t.give (leafPages s t 0 n)).own = t.pages s n := by
  ext q
  rw [Pt.mem_give, mem_leafPages, Pt.mem_pages]
  simp only [Nat.zero_add]

theorem Uspace.uvmfree (h : Uspace sym root s t (pagesOf sz)) (hsym : sym.Fits)
    (hrest : ∀ v, pagesOf sz ≤ v → lookup s.mem t v &&& PTE_V = 0) :
    ∃ s' l, uvmfree sym root sz s = some s' ∧ Pool s'.mem s'.freelist l ∧ l.toFinset = t.pages s (pagesOf sz) ∧
      Frame (region (t.pages s (pagesOf sz))) s.mem s'.mem := by
  have hle := h.size_le
  have hbound := h.bound
  by_cases hpos : 0 < sz
  · have hroot := h.root
    subst hroot
    obtain ⟨s₁, hrun, hc⟩ := h.kpt.uvmunmap hsym (k := pagesOf sz) (show Aligned (0 : Addr) from rfl)
      (by change 0 + _ ≤ _; omega) (fun i hi => by simpa [vpn] using h.leaf i hi)
      (fun (_ : true = true) i hi => by simpa [vpn] using h.page i hi)
      fun _ => ⟨fun i hi => by simpa [vpn] using h.not_own i hi,
        fun i hi j hj he => h.inj i hi j hj (by simpa [vpn] using he)⟩
    change Cleared s t true 0 (pagesOf sz) s₁ at hc
    have hu : Uspace sym (t.addr .root) s t (0 + pagesOf sz) := (Nat.zero_add _).symm ▸ h
    obtain ⟨hu₁, -⟩ := hu.cleared hc
    have hzero : ∀ v, lookup s₁.mem (t.give (leafPages s t 0 (pagesOf sz))) v &&& PTE_V = 0 := by
      intro v
      have hv := congrFun hc.map v
      change lookup s₁.mem t v &&& PTE_V = 0
      rw [hv, clearRange]
      split
      · rfl
      · exact hrest v (by omega)
    obtain ⟨s', l, hwalk, hpool, hl, hf⟩ := hu₁.freewalk hzero
    rw [Pt.give_leafPages] at hl hf
    refine ⟨s', l, ?_, hpool, hl, Frame.trans ?_ hf⟩
    · rw [uvmfree_pos hpos, PGROUNDUP_div hle, hrun]
      exact (Option.bind_some s₁ _).trans hwalk
    · have := hc.frame
      rwa [freed, if_pos rfl, Pt.give_leafPages] at this
  · have h0 : sz = 0 := by
      have : ¬ 0 < sz.toNat := hpos
      exact BitVec.eq_of_toNat_eq (by simpa using this)
    subst h0
    obtain ⟨s', l, hwalk, hpool, hl, hf⟩ := h.freewalk fun v => hrest v (Nat.zero_le _)
    have hpages : t.pages s (pagesOf 0) = t.own := by
      ext q
      rw [Pt.mem_pages]
      simp [pagesOf]
    rw [hpages]
    exact ⟨s', l, (uvmfree_zero root s).trans hwalk, hpool, hl, hf⟩

theorem Uspace.of_lookup (h : Uspace sym root s t n) (hk : Known sym root s' t')
    (hlow : ∀ v < n, lookup s'.mem t' v = lookup s.mem t v) (hown : ∀ v < n, leafPage s t v ∉ t'.own)
    (hhigh : ∀ v, n ≤ v → v < vpn TRAPFRAME → lookup s'.mem t' v &&& PTE_V = 0) : Uspace sym root s' t' n := by
  have hpage : ∀ v < n, leafPage s' t' v = leafPage s t v := fun v hv => congrArg PTE2PA (hlow v hv)
  refine ⟨hk, ?_, ?_, ?_, ?_, hhigh⟩
  · intro v hv
    rw [hlow v hv]
    exact h.leaf v hv
  · intro v hv
    rw [hpage v hv]
    exact h.page v hv
  · intro v hv
    rw [hpage v hv]
    exact hown v hv
  · intro v hv w hw he
    rw [hpage v hv, hpage w hw] at he
    exact h.inj v hv w hw he

theorem Pt.pages_congr (hown : t'.own = t.own) (hlow : ∀ v < n, lookup s'.mem t' v = lookup s.mem t v) :
    t'.pages s' n = t.pages s n := by
  rw [Pt.pages, Pt.pages, hown]
  refine congrArg _ (Finset.image_congr fun v hv => ?_)
  exact congrArg PTE2PA (hlow v (Finset.mem_range.mp hv))

theorem Image.free (h : Image sym trapframe root s t (pagesOf sz)) (hsym : sym.Fits) :
    ∃ s' l, procFreepagetable sym root sz s = some s' ∧ Pool s'.mem s'.freelist l ∧
      l.toFinset = t.pages s (pagesOf sz) ∧ Frame (region (t.pages s (pagesOf sz))) s.mem s'.mem := by
  obtain ⟨s₁, s₂, hrun₁, hrun₂, hstep, hlow, hhigh⟩ := h.unmap_fixed hsym h.le_trapframe
  have hu := h.of_lookup (h.toKnown.step hstep) hlow h.not_own fun v hv _ => hhigh v hv
  obtain ⟨s', l, hfree, hpool, hl, hf⟩ := hu.uvmfree hsym hhigh
  have hpages : t.pages s₂ (pagesOf sz) = t.pages s (pagesOf sz) := Pt.pages_congr rfl hlow
  rw [hpages] at hl hf
  refine ⟨s', l, ?_, hpool, hl, (hstep.frame.mono (region_mono (Pt.own_subset_pages s t _))).trans hf⟩
  simp -implicitDefEqProofs only [procFreepagetable, hrun₁, hrun₂, Option.bind_eq_bind, Option.bind_some, hfree]

/-! ## Carried along -/

theorem Image.of_lookup (h : Image sym trapframe root s t n) (hk : Known sym root s' t')
    (hmap : ∀ v, lookup s'.mem t' v = lookup s.mem t v) (hown : ∀ v < n, leafPage s t v ∉ t'.own) :
    Image sym trapframe root s' t' n := by
  refine ⟨h.toUspace.of_lookup hk (fun v _ => hmap v) hown fun v hn hv => ?_, ?_, ?_, fun v hv => ?_⟩
  · rw [hmap v]
    exact h.unmapped v hn hv
  · rw [hmap]
    exact h.trampoline
  · rw [hmap]
    exact h.trapframe
  · rw [hmap v]
    exact h.top v hv

theorem Image.transfer (h : Image sym trapframe root s t n) {X : Set Addr} (hf : Frame X s.mem s'.mem)
    (hd : ∀ a ∈ t.dom, Disjoint (page (t.addr a)) X) (hpool : Pool s'.mem s'.freelist l) (hl : ∀ q ∈ l, IsPage sym q)
    (hfresh : ∀ a ∈ t.dom, t.addr a ∉ l) (hleaf : ∀ v < n, leafPage s t v ∉ l) :
    Image sym trapframe root s' { t with free := l } n ∧
      ∀ v, lookup s'.mem { t with free := l } v = lookup s.mem t v := by
  obtain ⟨hkpt, hmap⟩ := h.kpt.transfer hf hd hpool (fun q hq => (hl q hq).low) hfresh
  have hown : ∀ q ∈ ({ t with free := l } : Pt).own, (∃ a ∈ t.dom, t.addr a = q) ∨ q ∈ l := fun q hq => Pt.mem_own.mp hq
  have hk : Known sym root s' { t with free := l } := by
    refine ⟨hkpt, h.indexed, h.root, fun q hq => ?_⟩
    rcases hown q hq with ⟨a, ha, rfl⟩ | hq
    · exact h.isPage _ (Pt.addr_mem_own ha)
    · exact hl q hq
  refine ⟨h.of_lookup hk hmap fun v hv hin => ?_, hmap⟩
  rcases hown _ hin with ⟨a, ha, he⟩ | hin
  · exact h.not_own v hv (he ▸ Pt.addr_mem_own ha)
  · exact hleaf v hv hin

theorem Image.write (h : Image sym trapframe root s t n) {X : Set Addr} {m : Mem} (hf : Frame X s.mem m)
    (hd : Disjoint (region t.own) X) :
    Image sym trapframe root ⟨m, s.freelist⟩ t n ∧ ∀ v, lookup m t v = lookup s.mem t v := by
  have hpool : Pool m s.freelist t.free :=
    h.kpt.pool.frame hf fun q hq => hd.mono_left (page_subset_region (Pt.free_mem_own hq))
  have hmem : Frame X s.mem (⟨m, s.freelist⟩ : Kmem).mem := hf
  exact h.transfer hmem (fun a ha => hd.mono_left (page_subset_region (Pt.addr_mem_own ha))) hpool
    (fun q hq => h.isPage q (Pt.free_mem_own hq)) h.kpt.fresh fun v hv hin => h.not_own v hv (Pt.free_mem_own hin)

/-! ## Two images -/

theorem Uspace.isPage_of_mem (h : Uspace sym root s t n) (hp : p ∈ t.pages s n) : IsPage sym p := by
  rcases Pt.mem_pages.mp hp with hp | ⟨v, hv, rfl⟩
  · exact h.isPage p hp
  · exact h.page v hv

theorem Uspace.mem_pages_free (h : Uspace sym root s t n) (hmap : ∀ v, lookup s'.mem { t with free := l } v =
    lookup s.mem t v) :
    p ∈ ({ t with free := l } : Pt).pages s' n ↔ p ∈ l ∨ p ∈ t.pages s n ∧ p ∉ t.free := by
  have hleaf : ∀ v, leafPage s' { t with free := l } v = leafPage s t v := fun v => congrArg PTE2PA (hmap v)
  simp only [Pt.mem_pages, Pt.mem_own, hleaf]
  constructor
  · rintro ((⟨a, ha, rfl⟩ | hp) | ⟨v, hv, rfl⟩)
    · exact Or.inr ⟨Or.inl (Or.inl ⟨a, ha, rfl⟩), h.kpt.fresh a ha⟩
    · exact Or.inl hp
    · exact Or.inr ⟨Or.inr ⟨v, hv, rfl⟩, fun hin => h.not_own v hv (Pt.free_mem_own hin)⟩
  · rintro (hp | ⟨(⟨a, ha, rfl⟩ | hp) | ⟨v, hv, rfl⟩, hn⟩)
    · exact Or.inl (Or.inr hp)
    · exact Or.inl (Or.inl ⟨a, ha, rfl⟩)
    · exact absurd hp hn
    · exact Or.inr ⟨v, hv, rfl⟩

theorem Image.release {trapframe₀ root₀ : Addr} {t₀ : Pt} (h : Image sym trapframe root s t n)
    (h₀ : Image sym trapframe₀ root₀ s t₀ (pagesOf sz)) (hsym : sym.Fits)
    (hd : ∀ q ∈ t.pages s n, q ∉ t.free → q ∉ t₀.pages s (pagesOf sz)) :
    ∃ s' l, procFreepagetable sym root₀ sz s = some s' ∧ l.toFinset = t₀.pages s (pagesOf sz) ∧
      Frame (region (t₀.pages s (pagesOf sz))) s.mem s'.mem ∧ Image sym trapframe root s' { t with free := l } n ∧
      ∀ v, lookup s'.mem { t with free := l } v = lookup s.mem t v := by
  obtain ⟨s', l, hrun, hpool, hl, hf⟩ := h₀.free hsym
  have hmem : ∀ q, q ∈ l ↔ q ∈ t₀.pages s (pagesOf sz) := fun q => by rw [← hl, List.mem_toFinset]
  have hnode : ∀ a ∈ t.dom, t.addr a ∉ t₀.pages s (pagesOf sz) := fun a ha =>
    hd _ (Pt.own_subset_pages _ _ _ (Pt.addr_mem_own ha)) (h.kpt.fresh a ha)
  have hleaf : ∀ v < n, leafPage s t v ∉ t₀.pages s (pagesOf sz) := fun v hv =>
    hd _ (Pt.mem_pages.mpr (Or.inr ⟨v, hv, rfl⟩)) fun hin => h.not_own v hv (Pt.free_mem_own hin)
  have himg := h.transfer hf
    (fun a ha => page_disjoint_region (fun q hq => (h₀.isPage_of_mem hq).aligned) (h.kpt.aligned a ha) (hnode a ha)) hpool
    (fun q hq => h₀.isPage_of_mem ((hmem q).mp hq)) (fun a ha hin => hnode a ha ((hmem _).mp hin))
    fun v hv hin => hleaf v hv ((hmem _).mp hin)
  exact ⟨s', l, hrun, hl, hf, himg.1, himg.2⟩

/-! ## `uvmalloc` -/

theorem vpn_TRAMPOLINE_ge : vpn TRAPFRAME ≤ vpn TRAMPOLINE := by
  rw [vpn_TRAPFRAME, vpn_TRAMPOLINE]
  omega

theorem Image.restored (h : Image sym trapframe root s t n) (hr : Restored s t n k s' t') (hk : n + k ≤ vpn TRAPFRAME) :
    Image sym trapframe root s' t' n ∧ (∀ v < n, lookup s'.mem t' v = lookup s.mem t v) := by
  have hhigh : ∀ v, vpn TRAPFRAME ≤ v → lookup s'.mem t' v = lookup s.mem t v := by
    intro v hv
    rcases hr.map v with he | ⟨⟨_, hlt⟩, _⟩
    · exact he
    · omega
  refine ⟨⟨h.toUspace.restored hr, ?_, ?_, fun v hv => ?_⟩, fun v hv => ?_⟩
  · rw [hhigh _ vpn_TRAMPOLINE_ge]
    exact h.trampoline
  · rw [hhigh _ le_rfl]
    exact h.trapframe
  · rw [hhigh v (by rw [vpn_TRAPFRAME]; omega)]
    exact h.top v hv
  · rcases hr.map v with he | ⟨⟨hle, _⟩, _⟩
    · exact he
    · omega

theorem Image.taken (h : Image sym trapframe root s t n) (ht : Taken fl b s t n s' t' k) :
    Image sym trapframe root s' t' (n + k) := by
  have hu := h.toUspace.taken ht
  have hbound := hu.bound
  have hhigh : ∀ v, vpn TRAPFRAME ≤ v → lookup s'.mem t' v = lookup s.mem t v := by
    intro v hv
    rw [vpn_TRAPFRAME] at hv
    exact ht.same v (Or.inr (by omega))
  refine ⟨hu, ?_, ?_, fun v hv => ?_⟩
  · rw [hhigh _ vpn_TRAMPOLINE_ge]
    exact h.trampoline
  · rw [hhigh _ le_rfl]
    exact h.trapframe
  · rw [hhigh v (by rw [vpn_TRAPFRAME]; omega)]
    exact h.top v hv

theorem Taken.pages (ht : Taken fl b s t n s' t' k) : t'.pages s' (n + k) = t.pages s n := by
  have hpage : ∀ v < n, leafPage s' t' v = leafPage s t v := fun v hv => congrArg PTE2PA (ht.same v (Or.inl hv))
  ext q
  rw [Pt.mem_pages, Pt.mem_pages, ht.own q, or_assoc]
  refine or_congr_right ⟨?_, ?_⟩
  · rintro ⟨v, hv, rfl⟩
    by_cases hlt : v < n
    · exact Or.inr ⟨v, hlt, (hpage v hlt).symm⟩
    · exact Or.inl ⟨v - n, by omega, by rw [Nat.add_sub_cancel' (by omega)]⟩
  · rintro (⟨i, hi, rfl⟩ | ⟨v, hv, rfl⟩)
    · exact ⟨n + i, by omega, rfl⟩
    · exact ⟨v, by omega, hpage v hv⟩

/-- **`uvmalloc` on the image of a process.** It returns 0 and nothing is changed, or the new size; the pages are the
process's or free as before. -/
theorem Image.uvmalloc (h : Image sym trapframe root s t (pagesOf oldsz)) (hsym : sym.Fits) (hx : xperm.toNat < 1024)
    (newsz : BitVec 64) :
    ∃ r s' t', Kernel.uvmalloc sym root oldsz newsz xperm s = some (r, s') ∧ Frame (region t.own) s.mem s'.mem ∧
      Image sym trapframe root s' t' (pagesOf (if r = 0 then oldsz else r)) ∧
      t'.pages s' (pagesOf (if r = 0 then oldsz else r)) = t.pages s (pagesOf oldsz) ∧
      (∀ v < pagesOf oldsz, lookup s'.mem t' v = lookup s.mem t v) ∧
      (∀ v, pagesOf oldsz ≤ v → v < pagesOf (if r = 0 then oldsz else r) →
        PTE_FLAGS (lookup s'.mem t' v) = PTE_R ||| PTE_U ||| xperm ||| PTE_V) ∧
      (r ≠ 0 → r = if newsz < oldsz then oldsz else newsz) := by
  by_cases hlt : newsz < oldsz
  · have h0 : oldsz ≠ 0 := by
      rintro rfl
      exact BitVec.not_lt_zero hlt
    refine ⟨oldsz, s, t, by rw [Kernel.uvmalloc, if_pos hlt], Frame.refl _ _, ?_⟩
    rw [if_neg h0]
    exact ⟨h, rfl, fun _ _ => rfl, fun v hv hv' => absurd hv' (by omega), fun _ => (if_pos hlt).symm⟩
  · have hpages := h.toUspace.size_pages
    obtain ⟨r, s', hrun, hended⟩ := (hpages.symm ▸ h.toUspace).uvmalloc hsym hx hlt
    rw [hpages] at hended
    rcases hended with ⟨rfl, k, t', hz, hle, hlast⟩ | ⟨rfl, k, t', hr, hk⟩
    · have himage := h.taken hz
      have hreach : pagesOf oldsz + k = pagesOf r := by
        have hbound := himage.bound
        unfold pagesOf at *
        have := BitVec.lt_def.not.mp hlt
        omega
      have hsz : pagesOf (if r = 0 then oldsz else r) = pagesOf oldsz + k := by
        split
        · next h0 =>
          subst h0
          have := BitVec.lt_def.not.mp hlt
          unfold pagesOf at *
          simp at *
          omega
        · exact hreach.symm
      refine ⟨r, s', t', hrun, hz.frame, ?_⟩
      rw [hsz, if_neg hlt]
      refine ⟨himage, hz.pages, fun v hv => hz.same v (Or.inl hv), fun v hv hv' => ?_, fun _ => rfl⟩
      have := hz.flags (v - pagesOf oldsz) (by omega)
      rwa [Nat.add_sub_cancel' hv] at this
    · obtain ⟨himage, hlow⟩ := h.restored hr hk
      refine ⟨0, s', t', hrun, hr.frame, ?_⟩
      rw [if_pos rfl]
      exact ⟨himage, Pt.pages_congr hr.own hlow, hlow, fun v hv hv' => absurd hv' (by omega), fun h0 => absurd rfl h0⟩

/-! ## The user pages -/

theorem not_user_of_flags (p : Addr) {f : BitVec 64} (hf : f.toNat < 1024) (hu : (f ||| PTE_V) &&& PTE_U = 0) :
    (PA2PTE p ||| f ||| PTE_V) &&& PTE_U = 0 := by
  have hflags := PTE_FLAGS_PA2PTE_or p (or_PTE_V_lt hf)
  have hmask : PTE_U = 0x3ff &&& PTE_U := rfl
  rw [BitVec.or_assoc, hmask, ← BitVec.and_assoc]
  change PTE_FLAGS (PA2PTE p ||| (f ||| PTE_V)) &&& PTE_U = 0
  rw [hflags]
  exact hu

section
variable (h : Image sym trapframe root s t n)
include h

theorem Image.user_lt (hu : UserPte (lookup s.mem t v)) : v < n := by
  by_contra hn
  by_cases h₁ : v < vpn TRAPFRAME
  · exact hu.1 (h.unmapped v (by omega) h₁)
  by_cases h₂ : 2 ^ 26 ≤ v
  · exact hu.1 (h.top v h₂)
  rw [vpn_TRAPFRAME] at h₁
  obtain rfl | rfl : v = vpn TRAPFRAME ∨ v = vpn TRAMPOLINE := by
    rw [vpn_TRAPFRAME, vpn_TRAMPOLINE]
    omega
  · refine hu.2 ?_
    rw [h.trapframe]
    exact not_user_of_flags _ (by decide) (by decide)
  · refine hu.2 ?_
    rw [h.trampoline]
    exact not_user_of_flags _ (by decide) (by decide)

theorem Image.userPages (hsym : sym.Fits) : UserPages s.mem t where
  shape := h.kpt.shape
  inj v _ w _ hu hu' he := h.inj v (h.user_lt hu) w (h.user_lt hu') he
  ne_zero v _ hu := (h.page v (h.user_lt hu)).ne_zero hsym
  not_node v _ hu a ha he := by
    have := h.not_own v (h.user_lt hu)
    rw [leafPage, ← he] at this
    exact this (Pt.addr_mem_own ha)

theorem Image.readable (hv : v < n) (hu : lookup s.mem t v &&& PTE_U ≠ 0) {a : ℕ}
    (ha : a / PGSIZE = v) : Readable s.mem t a := by
  have := h.bound
  exact ⟨by omega, ha ▸ (h.leaf v hv).1, ha ▸ hu⟩

theorem Image.walkaddr (hv : v < n) (hu : lookup s.mem t v &&& PTE_U ≠ 0) {a : Addr}
    (ha : a.toNat = 4096 * v) : walkaddr root a s = some (leafPage s t v) := by
  have hdiv : a.toNat / PGSIZE = v := by
    unfold PGSIZE
    omega
  have hround : PGROUNDDOWN a = a := by
    apply BitVec.eq_of_toNat_eq
    rw [PGROUNDDOWN_toNat]
    omega
  have := h.kpt.shape.walkaddr_readable (h.readable hv hu hdiv)
  rwa [hround, hdiv, h.root] at this

theorem Image.copyout (hsym : sym.Fits) (hv : v < n) (hu : lookup s.mem t v &&& PTE_U ≠ 0)
    (hw : lookup s.mem t v &&& PTE_W ≠ 0) {dstva src : Addr} {len : BitVec 64} (hlow : 4096 * v ≤ dstva.toNat)
    (hhigh : dstva.toNat + len.toNat ≤ 4096 * (v + 1)) (hap : ∀ i < len.toNat, off src i ∉ page (leafPage s t v)) :
    ∃ m, copyout root dstva src len s = some (0, ⟨m, s.freelist⟩) ∧ Frame (page (leafPage s t v)) s.mem m ∧
      Moved s.mem (fun k => off (leafPage s t v) (dstva.toNat - 4096 * v + k)) (off src) len.toNat m := by
  have hpage : ∀ k < len.toNat, (dstva.toNat + k) / PGSIZE = v := by
    intro k hk
    unfold PGSIZE
    omega
  have hphys : ∀ k < len.toNat, phys s.mem t (dstva.toNat + k) = off (leafPage s t v) (dstva.toNat - 4096 * v + k) := by
    intro k hk
    have hmod : (dstva.toNat + k) % PGSIZE = dstva.toNat - 4096 * v + k := by
      unfold PGSIZE
      omega
    rw [phys, hpage k hk, hmod, leafPage]
  have hin : ∀ k < len.toNat, phys s.mem t (dstva.toNat + k) ∈ page (leafPage s t v) := by
    intro k hk
    have := phys_mem_page s.mem t (dstva.toNat + k)
    rwa [hpage k hk] at this
  have hwr : ∀ k < len.toNat, Writable s.mem t (dstva.toNat + k) := fun k hk =>
    ⟨h.readable hv hu (hpage k hk), (hpage k hk).symm ▸ hw⟩
  obtain ⟨j, r, s', hrun, hc⟩ := (h.userPages hsym).copyoutLoop h.root
    (fun k hk _ i hi he => hap i hi (he ▸ hin k hk)) (len.toNat + 1) dstva src len
    (fun k hk => absurd hk (Nat.not_lt_zero k)) (Moved.zero s.mem _ _) rfl (Nat.zero_le _) (fun _ => rfl)
    (off_zero src).symm rfl (by omega)
  obtain ⟨rfl, rfl⟩ : r = 0 ∧ j = len.toNat := by
    rcases hc.ends with he | ⟨_, hj, hno⟩
    · exact he
    · exact absurd (hwr j hj) hno
  obtain ⟨m, fl⟩ := s'
  obtain rfl : fl = s.freelist := hc.freelist
  refine ⟨m, hrun, hc.moved.frame.mono ?_, ?_, ?_⟩
  · rintro x ⟨k, hk, rfl⟩
    exact hin k hk
  · intro k hk
    rw [← hphys k hk]
    exact hc.moved.copied k hk
  · refine hc.moved.frame.mono ?_
    rintro x ⟨k, hk, rfl⟩
    exact ⟨k, hk, hphys k hk⟩

end

/-! ## `uvmclear` -/

theorem PTE2PA_clear_U (x : BitVec 64) : PTE2PA (x &&& ~~~PTE_U) = PTE2PA x := by
  have hmask : (~~~PTE_U) >>> 10 = BitVec.ofNat 64 (2 ^ 54 - 1) := by decide
  have hshift : (x &&& ~~~PTE_U) >>> 10 = x >>> 10 := by
    rw [BitVec.ushiftRight_and_distrib, hmask]
    apply BitVec.eq_of_toNat_eq
    have hlt : (x >>> 10).toNat < 2 ^ 54 := by
      rw [BitVec.toNat_ushiftRight, Nat.shiftRight_eq_div_pow]
      have := x.isLt
      omega
    rw [BitVec.toNat_and, BitVec.toNat_ofNat, Nat.mod_eq_of_lt (by norm_num), Nat.and_two_pow_sub_one_eq_mod,
      Nat.mod_eq_of_lt hlt]
  rw [PTE2PA, PTE2PA, hshift]

theorem PTE_FLAGS_clear_U (x : BitVec 64) : PTE_FLAGS (x &&& ~~~PTE_U) = PTE_FLAGS x &&& ~~~PTE_U := by
  rw [PTE_FLAGS, PTE_FLAGS, BitVec.and_assoc, BitVec.and_comm (~~~PTE_U), ← BitVec.and_assoc]

theorem and_of_flags {x y f : BitVec 64} (hx : PTE_FLAGS x = f) (hy : y = 0x3ff &&& y) : x &&& y = f &&& y := by
  rw [← hx, PTE_FLAGS, BitVec.and_assoc, ← hy]

theorem Image.uvmclear (h : Image sym trapframe root s t n) (hv : v < n)
    (hflags : PTE_FLAGS (lookup s.mem t v) = PTE_R ||| PTE_U ||| PTE_W ||| PTE_V) {va : Addr} (hva : va.toNat = 4096 * v) :
    ∃ s', uvmclear root va s = some s' ∧ Frame (region t.own) s.mem s'.mem ∧ Image sym trapframe root s' t n ∧
      t.pages s' n = t.pages s n ∧
      lookup s'.mem t = update (lookup s.mem t) v (lookup s.mem t v &&& ~~~PTE_U) := by
  have hvpn : vpn va = v := by
    unfold vpn
    omega
  have hbound := h.bound
  have hmem := leafOf_mem (h.leaf v hv).ne_zero
  have hrun : Kernel.uvmclear root va s =
      some ⟨store s.mem (t.slot v) (lookup s.mem t v &&& ~~~PTE_U), s.freelist⟩ := by
    rw [Kernel.uvmclear, ← h.root, h.kpt.walk_slot (lt_MAXVA_iff.mpr (by omega)), hvpn, if_pos hmem]
    simp only [Option.bind_eq_bind, Option.bind_some]
    rw [if_neg (h.kpt.slot_ne hmem), load_slot hmem]
  have hstep := h.kpt.store_step hmem (lookup s.mem t v &&& ~~~PTE_U)
  have hmap := funext (h.kpt.store_map hmem (lookup s.mem t v &&& ~~~PTE_U))
  generalize store s.mem (t.slot v) (lookup s.mem t v &&& ~~~PTE_U) = m at hrun hstep hmap
  have hother : ∀ w, w ≠ v → lookup m t w = lookup s.mem t w := by
    intro w hw
    rw [hmap, update_of_ne hw]
  have hself : lookup m t v = lookup s.mem t v &&& ~~~PTE_U := by rw [hmap, update_self]
  have hpage : ∀ w, leafPage ⟨m, s.freelist⟩ t w = leafPage s t w := by
    intro w
    by_cases hw : w = v
    · subst hw
      exact (congrArg PTE2PA hself).trans (PTE2PA_clear_U _)
    · exact congrArg PTE2PA (hother w hw)
  have hcleared : PTE_FLAGS (lookup m t v) = PTE_R ||| PTE_W ||| PTE_V := by
    rw [hself, PTE_FLAGS_clear_U, hflags]
    decide
  have hhigh : ∀ w, n ≤ w → lookup m t w = lookup s.mem t w := fun w hw => hother w (by omega)
  have hle := h.le_trapframe
  refine ⟨_, hrun, hstep.frame, ⟨⟨h.toKnown.step hstep, ?_, ?_, ?_, ?_, ?_⟩, ?_, ?_, ?_⟩, ?_, hmap⟩
  · intro w hw
    by_cases hwv : w = v
    · subst hwv
      refine ⟨?_, ?_⟩
      · rw [and_of_flags hcleared (by decide)]
        decide
      · rw [hcleared]
        decide
    · rw [hother w hwv]
      exact h.leaf w hw
  · intro w hw
    rw [hpage w]
    exact h.page w hw
  · intro w hw
    rw [hpage w]
    exact h.not_own w hw
  · intro w hw w' hw' he
    rw [hpage w, hpage w'] at he
    exact h.inj w hw w' hw' he
  · intro w hw hw'
    rw [hhigh w hw]
    exact h.unmapped w hw hw'
  · rw [hhigh _ (hle.trans vpn_TRAMPOLINE_ge)]
    exact h.trampoline
  · rw [hhigh _ hle]
    exact h.trapframe
  · intro w hw
    rw [hhigh w (by omega)]
    exact h.top w hw
  · rw [Pt.pages, Pt.pages]
    exact congrArg _ (Finset.image_congr fun w _ => hpage w)

end Xv6Boot.Kernel
