import Xv6Boot.Kernel.Kalloc

/-! # The page allocator over whole runs

`kinit`, then `kalloc` and `kfree` in any order, where only pages that are out are given back. In between the owners write
to their pages, and anybody to the memory that the allocator does not manage.
-/

namespace Xv6Boot.Kernel
open ByteMemory Pages

variable {sym : Symbols} {s s' : Kmem} {p q : Addr} {l : List Addr} {O : Finset Addr}

/-- A page of `[PGROUNDUP(end), PHYSTOP)`. -/
def Managed (sym : Symbols) (p : Addr) : Prop := Aligned p ∧ PGROUNDUP sym.endAddr ≤ p ∧ p < PHYSTOP

/-- The states that calls reach, with the pages that `kalloc` has returned and that were not freed since. -/
inductive Runs (sym : Symbols) (s₀ : Kmem) : Kmem → Finset Addr → Prop
  | kinit {s : Kmem} : kinit sym s₀ = some s → Runs sym s₀ s ∅
  | kalloc {s : Kmem} {O : Finset Addr} : Runs sym s₀ s O →
      Runs sym s₀ (kalloc s).2 (if (kalloc s).1 = 0 then O else insert (kalloc s).1 O)
  | kfree {s s' : Kmem} {O : Finset Addr} {pa : Addr} : Runs sym s₀ s O → pa ∈ O → kfree sym pa s = some s' →
      Runs sym s₀ s' (O.erase pa)
  | write {s : Kmem} {O : Finset Addr} {m : Mem} {X : Set Addr} : Runs sym s₀ s O → Frame X s.mem m →
      (∀ p, Managed sym p → p ∉ O → Disjoint (page p) X) → Runs sym s₀ ⟨m, s.freelist⟩ O

/-- The free list and the pages that are out share the managed pages. -/
structure Shared (sym : Symbols) (s : Kmem) (O : Finset Addr) (l : List Addr) : Prop where
  pool : Pool s.mem s.freelist l
  cover : ∀ p, p ∈ l ∨ p ∈ O ↔ Managed sym p
  disjoint : ∀ p ∈ l, p ∉ O

section Init
variable (hsym : sym.Fits)
include hsym

theorem managed_iff : Managed sym p ↔ p ∈ freePages sym (freeCount sym) := by
  have hbase : (PGROUNDUP sym.endAddr).toNat = _ := freeBase_toNat hsym
  have hstop : PHYSTOP.toNat = 0x89000000 := by decide
  rw [mem_freePages]
  constructor
  · rintro ⟨hal, hge, hlt⟩
    have hal' : p.toNat % 4096 = 0 := hal
    rw [BitVec.le_def] at hge
    rw [BitVec.lt_def] at hlt
    have hb : (freeBase sym).toNat = (PGROUNDUP sym.endAddr).toNat := rfl
    have hi : (p.toNat - (PGROUNDUP sym.endAddr).toNat) / 4096 < freeCount sym := by
      unfold freeCount PGSIZE
      omega
    refine ⟨_, hi, BitVec.eq_of_toNat_eq ?_⟩
    rw [freePage_toNat hi, hb]
    unfold PGSIZE
    omega
  · rintro ⟨i, hi, rfl⟩
    have hpg := freePage_isPage hsym hi
    refine ⟨hpg.aligned, ?_, hpg.lt_stop⟩
    rw [BitVec.le_def, freePage_toNat hi]
    exact Nat.le_add_right _ _

theorem Managed.isPage (h : Managed sym p) : IsPage sym p := by
  obtain ⟨i, hi, rfl⟩ := mem_freePages.mp ((managed_iff hsym).mp h)
  exact freePage_isPage hsym hi

theorem Managed.ne_zero (h : Managed sym p) : p ≠ 0 := by
  obtain ⟨i, hi, rfl⟩ := mem_freePages.mp ((managed_iff hsym).mp h)
  exact freePage_ne_zero hsym hi

theorem Shared.kinit {s₀ : Kmem} (h0 : s₀.freelist = 0) :
    ∃ s, kinit sym s₀ = some s ∧ Shared sym s ∅ (freePages sym (freeCount sym)) := by
  obtain ⟨s, hrun, hpool, _⟩ := kinit_pool hsym s₀ h0
  refine ⟨s, hrun, hpool, fun p => ?_, fun p _ => Finset.notMem_empty p⟩
  rw [managed_iff hsym]
  exact or_iff_left (Finset.notMem_empty p)

end Init

section Step
variable (h : Shared sym s O l)
include h

theorem Shared.out_aligned (hp : p ∈ O) : Aligned p := ((h.cover p).mp (Or.inr hp)).1

theorem Shared.byte {m : Mem} (hq : Aligned q) (hf : Frame (page q) s.mem m) (hp : p ∈ O) (hne : p ≠ q) {j : ℕ}
    (hj : j < PGSIZE) : m (off p j) = s.mem (off p j) := by
  unfold PGSIZE at hj
  exact hf.byte (page_disjoint (h.out_aligned hp) hq hne) hj (by omega)

theorem Shared.kalloc_nil (hl : l = []) : Kernel.kalloc s = (0, s) := by
  have hpool := h.pool
  rw [hl] at hpool
  exact Kernel.kalloc_nil hpool

theorem Shared.kalloc_cons {l' : List Addr} (hl : l = q :: l') : (Kernel.kalloc s).1 = q ∧ q ≠ 0 ∧ q ∉ O ∧
    Frame (page q) s.mem (Kernel.kalloc s).2.mem ∧ Shared sym (Kernel.kalloc s).2 (insert q O) l' := by
  subst hl
  obtain ⟨hq, h0, hpool, hf⟩ := Kernel.kalloc_cons h.pool
  have hnot : q ∉ l' := (List.nodup_cons.mp h.pool.nodup).1
  refine ⟨hq, h0, h.disjoint q List.mem_cons_self, hf, hpool, fun p => ?_, fun p hp hin => ?_⟩
  · rw [← h.cover, List.mem_cons, Finset.mem_insert]
    tauto
  · rcases Finset.mem_insert.mp hin with rfl | hin
    · exact hnot hp
    · exact h.disjoint p (List.mem_cons_of_mem _ hp) hin

theorem Shared.kfree (hsym : sym.Fits) (hq : q ∈ O) : ∃ s', Kernel.kfree sym q s = some s' ∧
    Frame (page q) s.mem s'.mem ∧ Shared sym s' (O.erase q) (q :: l) := by
  have hm : Managed sym q := (h.cover q).mp (Or.inr hq)
  have hpg := hm.isPage hsym
  have hnot : q ∉ l := fun hin => h.disjoint q hin hq
  obtain ⟨s', hrun, _, _, hf⟩ := kfree_spec hpg s
  refine ⟨s', hrun, hf, kfree_pool hpg (hm.ne_zero hsym) h.pool hnot hrun, fun p => ?_, fun p hp hin => ?_⟩
  · rw [← h.cover, List.mem_cons, Finset.mem_erase]
    constructor
    · rintro ((rfl | hp) | ⟨_, hp⟩)
      · exact Or.inr hq
      · exact Or.inl hp
      · exact Or.inr hp
    · rintro (hp | hp)
      · exact Or.inl (Or.inr hp)
      · by_cases he : p = q
        · exact Or.inl (Or.inl he)
        · exact Or.inr ⟨he, hp⟩
  · obtain ⟨hne, hin⟩ := Finset.mem_erase.mp hin
    rcases List.mem_cons.mp hp with rfl | hp
    · exact hne rfl
    · exact h.disjoint p hp hin

theorem Shared.write {m : Mem} {X : Set Addr} (hf : Frame X s.mem m)
    (hX : ∀ p, Managed sym p → p ∉ O → Disjoint (page p) X) : Shared sym ⟨m, s.freelist⟩ O l where
  pool := h.pool.frame hf fun p hp => hX p ((h.cover p).mp (Or.inl hp)) (h.disjoint p hp)
  cover := h.cover
  disjoint := h.disjoint

end Step

theorem Runs.shared {s₀ : Kmem} (hsym : sym.Fits) (h0 : s₀.freelist = 0) (h : Runs sym s₀ s O) :
    ∃ l, Shared sym s O l := by
  induction h with
  | kinit hrun =>
    obtain ⟨s, hrun', hs⟩ := Shared.kinit hsym h0
    rw [hrun] at hrun'
    cases hrun'
    exact ⟨_, hs⟩
  | kalloc _ ih =>
    obtain ⟨l, hs⟩ := ih
    cases l with
    | nil =>
      rw [hs.kalloc_nil rfl, if_pos rfl]
      exact ⟨[], hs⟩
    | cons q l =>
      obtain ⟨hq, hne, _, _, hs'⟩ := hs.kalloc_cons rfl
      rw [hq, if_neg hne]
      exact ⟨l, hs'⟩
  | kfree _ hpa hrun ih =>
    obtain ⟨l, hs⟩ := ih
    obtain ⟨s', hrun', _, hs'⟩ := hs.kfree hsym hpa
    rw [hrun] at hrun'
    cases hrun'
    exact ⟨_, hs'⟩
  | write _ hf hX ih =>
    obtain ⟨l, hs⟩ := ih
    exact ⟨l, hs.write hf hX⟩

/-- **The allocator**: in every state the free list, followed through the pages, is finite and has no page twice; with the
pages that are out it makes up the managed pages. What the next call does to the pages that are out follows. -/
theorem allocator_partition (hsym : sym.Fits) (s₀ : Kmem) (h0 : s₀.freelist = 0) :
    (∃ s, kinit sym s₀ = some s) ∧ ∀ s O, Runs sym s₀ s O →
      (∃ l, Chain s.mem s.freelist l ∧ l.Nodup ∧ (∀ p ∈ l, p ∉ O) ∧ ∀ p, p ∈ l ∨ p ∈ O ↔ Managed sym p) ∧
      ((kalloc s).1 = 0 ↔ ∀ p, Managed sym p → p ∈ O) ∧ (kalloc s).1 ∉ O ∧
      (∀ p ∈ O, ∀ j < PGSIZE, (kalloc s).2.mem (off p j) = s.mem (off p j)) ∧
      ∀ pa ∈ O, ∃ s', kfree sym pa s = some s' ∧
        ∀ p ∈ O.erase pa, ∀ j < PGSIZE, s'.mem (off p j) = s.mem (off p j) := by
  refine ⟨(Shared.kinit hsym h0).imp fun s h => h.1, fun s O hrun => ?_⟩
  obtain ⟨l, h⟩ := hrun.shared hsym h0
  refine ⟨⟨l, h.pool.chain, h.pool.nodup, h.disjoint, h.cover⟩, ?_⟩
  have hfree : ∀ pa ∈ O, ∃ s', kfree sym pa s = some s' ∧
      ∀ p ∈ O.erase pa, ∀ j < PGSIZE, s'.mem (off p j) = s.mem (off p j) := by
    intro pa hpa
    obtain ⟨s', hrun', hf, _⟩ := h.kfree hsym hpa
    refine ⟨s', hrun', fun p hp j hj => ?_⟩
    obtain ⟨hne, hp⟩ := Finset.mem_erase.mp hp
    exact h.byte (h.out_aligned hpa) hf hp hne hj
  cases l with
  | nil =>
    rw [h.kalloc_nil rfl]
    have hall : ∀ p, Managed sym p → p ∈ O := fun p hp => ((h.cover p).mpr hp).resolve_left List.not_mem_nil
    have hnot : (0 : Addr) ∉ O := fun hin => ((h.cover 0).mp (Or.inr hin)).ne_zero hsym rfl
    exact ⟨iff_of_true rfl hall, hnot, fun _ _ _ _ => rfl, hfree⟩
  | cons q l =>
    obtain ⟨hq, hne, hout, hf, _⟩ := h.kalloc_cons rfl
    have hm : Managed sym q := (h.cover q).mp (Or.inl List.mem_cons_self)
    rw [hq]
    refine ⟨iff_of_false hne fun hall => hout (hall q hm), hout, fun p hp j hj => ?_, hfree⟩
    exact h.byte hm.1 hf hp (fun he => hout (he ▸ hp)) hj

theorem booted_allocator : ∃ s, kinit linked ⟨bootedMem, 0⟩ = some s ∧ (kalloc s).1 ≠ 0 ∧
    Runs linked ⟨bootedMem, 0⟩ s ∅ := by
  obtain ⟨⟨s, hrun⟩, hall⟩ := allocator_partition linked_fits ⟨bootedMem, 0⟩ rfl
  have hruns : Runs linked ⟨bootedMem, 0⟩ s ∅ := Runs.kinit hrun
  obtain ⟨_, hiff, _⟩ := hall s ∅ hruns
  refine ⟨s, hrun, fun h0 => ?_, hruns⟩
  have hm : Managed linked 0x88fff000#64 := ⟨rfl, by decide, by decide⟩
  exact Finset.notMem_empty _ (hiff.mp h0 _ hm)

end Xv6Boot.Kernel
