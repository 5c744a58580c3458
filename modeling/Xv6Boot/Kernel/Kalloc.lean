import Xv6Boot.Foundations.Pages
import Xv6Boot.Bootloader.Boot

/-! # `kalloc.c`: the physical page allocator

The free list is threaded through the free pages. `kinit` frees every page from the end of the kernel to
`PHYSTOP`; each of `kalloc` and `kfree` runs under `kmem.lock` and is one step here. `none` is a panic.
The kernel's `string.c` is the bootloader's.
-/

namespace Xv6Boot.Kernel
open ByteMemory Loop StringC Pages

/-! ## `memlayout.h`, `riscv.h` and the linker symbols -/

def PGSIZE : ℕ := 4096
def KERNBASE : Addr := 0x81000000#64
def PHYSTOP : Addr := KERNBASE + 128 * 1024 * 1024

def PGROUNDUP (sz : Addr) : Addr := (sz + BitVec.ofNat 64 PGSIZE - 1) &&& ~~~(BitVec.ofNat 64 PGSIZE - 1)

structure Symbols where
  endAddr : Addr
  etext : Addr
  trampoline : Addr

/-- Their values in `kernel.sym`. -/
def linked : Symbols := ⟨0x81019000#64, 0x81007000#64, 0x81006000#64⟩

/-! ## The allocator -/

structure Kmem where
  mem : Mem
  freelist : Addr

def kfree (sym : Symbols) (pa : Addr) (s : Kmem) : Option Kmem :=
  if pa.toNat % PGSIZE ≠ 0 ∨ pa < sym.endAddr ∨ PHYSTOP ≤ pa then
    none
  else
    let mem := memset s.mem pa 1 PGSIZE
    some ⟨store mem pa s.freelist, pa⟩

/-- The loop runs while `p + PGSIZE <= pa_end`: once for each whole page of the range. -/
def freerange (sym : Symbols) (paStart paEnd : Addr) (s : Kmem) : Option Kmem :=
  let p := PGROUNDUP paStart
  forLoopM (fun i => kfree sym (off p (PGSIZE * i))) 0 ((paEnd.toNat - p.toNat) / PGSIZE) s

def kinit (sym : Symbols) (s : Kmem) : Option Kmem := freerange sym sym.endAddr PHYSTOP s

def kalloc (s : Kmem) : Addr × Kmem :=
  let r := s.freelist
  if r ≠ 0 then
    let freelist := load 64 s.mem r
    (r, ⟨memset s.mem r 5 PGSIZE, freelist⟩)
  else
    (r, s)

/-! ## One call -/

theorem memset_page_frame (m : Mem) (p : Addr) (c : Byte) : Frame (page p) m (memset m p c PGSIZE) := by
  rw [memset_eq_put m p c (by decide)]
  exact put_frame m p _ _

structure IsPage (sym : Symbols) (p : Addr) : Prop where
  aligned : Aligned p
  ge_end : sym.endAddr ≤ p
  lt_stop : p < PHYSTOP

variable {p : Addr} {s : Kmem} {i : ℕ} {sym : Symbols}

theorem kfree_spec (hp : IsPage sym p) (s : Kmem) :
    ∃ s', kfree sym p s = some s' ∧ s'.freelist = p ∧ load 64 s'.mem p = s.freelist ∧
      Frame (page p) s.mem s'.mem := by
  have h : ¬ (p.toNat % PGSIZE ≠ 0 ∨ p < sym.endAddr ∨ PHYSTOP ≤ p) := by
    rintro (ha | he | hs)
    · exact ha hp.aligned
    · exact absurd he (BitVec.not_lt.mpr hp.ge_end)
    · exact absurd hs (BitVec.not_le.mpr hp.lt_stop)
  refine ⟨⟨store (memset s.mem p 1 PGSIZE) p s.freelist, p⟩, ?_, rfl, load_store64 _ _ _, ?_⟩
  · rw [kfree, if_neg h]
  · exact (memset_page_frame s.mem p 1).trans ((store64_frame _ _ _).mono (first_word_subset_page p))

theorem kfree_pool (hp : IsPage sym p) (h0 : p ≠ 0) {s' : Kmem} {l : List Addr}
    (hl : Pool s.mem s.freelist l) (hn : p ∉ l) (h : kfree sym p s = some s') : Pool s'.mem s'.freelist (p :: l) := by
  obtain ⟨s1, h1, hfl, hload, hf⟩ := kfree_spec hp s
  rw [h] at h1
  cases h1
  rw [hfl]
  exact hl.push hp.aligned h0 hn hf hload

theorem kalloc_cons {l : List Addr} (h : Pool s.mem s.freelist (p :: l)) :
    (kalloc s).1 = p ∧ p ≠ 0 ∧ Pool (kalloc s).2.mem (kalloc s).2.freelist l ∧
      Frame (page p) s.mem (kalloc s).2.mem := by
  have hf := memset_page_frame s.mem p 5
  obtain ⟨hh, h0, hl⟩ := h.pop hf
  have hdef : kalloc s = (p, ⟨memset s.mem p 5 PGSIZE, load 64 s.mem p⟩) := by
    unfold kalloc
    rw [hh]
    exact if_pos h0
  rw [hdef]
  dsimp only
  exact ⟨rfl, h0, hl, hf⟩

theorem kalloc_nil (h : Pool s.mem s.freelist []) : kalloc s = (0, s) := by
  have h0 : s.freelist = 0 := h.chain
  unfold kalloc
  rw [h0]
  exact if_neg (by simp)

/-! ## `kinit` -/

theorem and_not_mask (x : Addr) : x &&& ~~~(BitVec.ofNat 64 PGSIZE - 1) = BitVec.ofNat 64 (x.toNat / 4096 * 4096) := by
  have hmask : ~~~(BitVec.ofNat 64 PGSIZE - 1) = BitVec.allOnes 52 ++ 0#12 := by decide
  have hx : x = (x.extractLsb' 12 52 ++ x.extractLsb' 0 12 : BitVec 64) := by
    apply BitVec.eq_of_toNat_eq
    have := x.isLt
    simp only [BitVec.toNat_append, BitVec.extractLsb'_toNat, Nat.shiftRight_zero]
    rw [← Nat.shiftLeft_add_eq_or_of_lt (by omega), Nat.shiftLeft_eq, Nat.shiftRight_eq_div_pow]
    omega
  rw [hmask]
  nth_rewrite 1 [hx]
  rw [BitVec.and_append, BitVec.and_allOnes, BitVec.and_zero]
  apply BitVec.eq_of_toNat_eq
  have := x.isLt
  simp only [BitVec.toNat_append, BitVec.extractLsb'_toNat, BitVec.toNat_ofNat, Nat.shiftRight_eq_div_pow]
  rw [Nat.zero_mod, Nat.or_zero, Nat.shiftLeft_eq]
  omega

theorem PGROUNDUP_toNat {sz : Addr} (h : sz.toNat + 4095 < 2 ^ 64) :
    (PGROUNDUP sz).toNat = (sz.toNat + 4095) / 4096 * 4096 := by
  have hs : (sz + BitVec.ofNat 64 PGSIZE - 1).toNat = sz.toNat + 4095 := by
    unfold PGSIZE
    bv_omega
  rw [PGROUNDUP, and_not_mask, hs, BitVec.toNat_ofNat]
  omega

def freeBase (sym : Symbols) : Addr := PGROUNDUP sym.endAddr

def freeCount (sym : Symbols) : ℕ := (PHYSTOP.toNat - (freeBase sym).toNat) / PGSIZE

/-- A kernel that ends below `PHYSTOP`. -/
structure Symbols.Fits (sym : Symbols) : Prop where
  pos : 0 < sym.endAddr.toNat
  le : sym.endAddr.toNat ≤ PHYSTOP.toNat

theorem linked_fits : linked.Fits := ⟨by decide, by decide⟩

def freePages (sym : Symbols) (n : ℕ) : List Addr :=
  ((List.range n).map fun i => off (freeBase sym) (PGSIZE * i)).reverse

theorem mem_freePages {n : ℕ} : p ∈ freePages sym n ↔ ∃ i < n, off (freeBase sym) (PGSIZE * i) = p := by
  simp [freePages]

theorem freePages_succ (sym : Symbols) (n : ℕ) :
    freePages sym (n + 1) = off (freeBase sym) (PGSIZE * n) :: freePages sym n := by
  simp [freePages, List.range_succ]

@[simp] theorem freePages_length (sym : Symbols) (n : ℕ) : (freePages sym n).length = n := by simp [freePages]

theorem freePage_toNat (hi : i < freeCount sym) :
    (off (freeBase sym) (PGSIZE * i)).toNat = (freeBase sym).toNat + PGSIZE * i := by
  have hstop : PHYSTOP.toNat = 0x89000000 := by decide
  unfold freeCount PGSIZE at *
  exact off_toNat _ _ (by omega)

theorem freePage_injective {j : ℕ} (hi : i < freeCount sym) (hj : j < freeCount sym)
    (h : off (freeBase sym) (PGSIZE * i) = off (freeBase sym) (PGSIZE * j)) : i = j := by
  have hni := freePage_toNat hi
  have hnj := freePage_toNat hj
  rw [h, hnj] at hni
  unfold PGSIZE at hni
  omega

section Init
variable (hsym : sym.Fits)
include hsym

theorem freeBase_toNat : (freeBase sym).toNat = (sym.endAddr.toNat + 4095) / 4096 * 4096 := by
  have hle := hsym.le
  have hstop : PHYSTOP.toNat = 0x89000000 := by decide
  exact PGROUNDUP_toNat (by omega)

theorem freePage_isPage (hi : i < freeCount sym) : IsPage sym (off (freeBase sym) (PGSIZE * i)) := by
  have hb := freeBase_toNat hsym
  have hn := freePage_toNat hi
  unfold freeCount PGSIZE at *
  refine ⟨?_, ?_, ?_⟩
  · unfold Aligned pageBytes
    omega
  · rw [BitVec.le_def]
    omega
  · rw [BitVec.lt_def]
    omega

theorem freePage_ne_zero (hi : i < freeCount sym) : off (freeBase sym) (PGSIZE * i) ≠ 0 := by
  have hb := freeBase_toNat hsym
  have hn := freePage_toNat hi
  have hpos := hsym.pos
  intro h0
  rw [h0, show (0 : Addr).toNat = 0 from rfl] at hn
  omega

theorem kinit_head (s : Kmem) (hpos : 0 < freeCount sym) :
    ∃ s', kinit sym s = some s' ∧ s'.freelist = off (freeBase sym) (PGSIZE * (freeCount sym - 1)) := by
  obtain ⟨s', h, hinv⟩ := forLoopM_induct (fun i => kfree sym (off (freeBase sym) (PGSIZE * i)))
    (fun i s' => 0 < i → s'.freelist = off (freeBase sym) (PGSIZE * (i - 1))) 0 (freeCount sym) s
    (fun h => absurd h (Nat.lt_irrefl 0)) (by
      intro i s1 _ hi _
      obtain ⟨s2, h2, hfl, -, -⟩ := kfree_spec (freePage_isPage hsym (by omega : i < freeCount sym)) s1
      exact ⟨s2, h2, fun _ => hfl⟩)
  rw [Nat.zero_add] at hinv
  exact ⟨s', h, hinv hpos⟩

theorem kinit_pool (s : Kmem) (h0 : s.freelist = 0) :
    ∃ s', kinit sym s = some s' ∧ Pool s'.mem s'.freelist (freePages sym (freeCount sym)) ∧
      Frame (⋃ p ∈ freePages sym (freeCount sym), page p) s.mem s'.mem := by
  obtain ⟨s', h, hpool, hf⟩ := forLoopM_induct (fun i => kfree sym (off (freeBase sym) (PGSIZE * i)))
    (fun i s' => Pool s'.mem s'.freelist (freePages sym i) ∧
      Frame (⋃ p ∈ freePages sym (freeCount sym), page p) s.mem s'.mem) 0 (freeCount sym) s
    ⟨⟨h0, by simp [freePages], by simp [freePages]⟩, Frame.refl _ _⟩ (by
      rintro i s1 _ hi ⟨hpool, hf⟩
      have hi' : i < freeCount sym := by omega
      have hp := freePage_isPage hsym hi'
      obtain ⟨s2, h2, -, -, hf2⟩ := kfree_spec hp s1
      have hnew : off (freeBase sym) (PGSIZE * i) ∉ freePages sym i := by
        rw [mem_freePages]
        rintro ⟨j, hj, he⟩
        have := freePage_injective (by omega) hi' he
        omega
      refine ⟨s2, h2, ?_, hf.trans (hf2.mono ?_)⟩
      · rw [freePages_succ]
        exact kfree_pool hp (freePage_ne_zero hsym hi') hpool hnew h2
      · exact Set.subset_biUnion_of_mem (u := page) (mem_freePages.mpr ⟨i, hi', rfl⟩))
  rw [Nat.zero_add] at hpool
  exact ⟨s', h, hpool, hf⟩

end Init

/-! ## Runs of the allocator against the published memory range -/

inductive Call where
  | alloc
  | free (pa : Addr)

def Call.exec (sym : Symbols) : Call → Kmem → Option (Option Addr × Kmem)
  | .alloc, s => some ((kalloc s).1, (kalloc s).2)
  | .free pa, s => (kfree sym pa s).map fun s' => (none, s')

/-- Following `next` from `p` leads to `q`. -/
inductive Reaches (m : Mem) : Addr → Addr → Prop
  | here {p : Addr} : p ≠ 0 → Reaches m p p
  | next {p q : Addr} : p ≠ 0 → Reaches m (load 64 m p) q → Reaches m p q

def OnFreeList (s : Kmem) (p : Addr) : Prop := Reaches s.mem s.freelist p

/-- Throughout the calls, every page on the free list and every page handed out satisfies `R`. -/
def RunIn (sym : Symbols) (R : Addr → Prop) : Kmem → List Call → Prop
  | s, [] => ∀ p, OnFreeList s p → R p
  | s, c :: cs => (∀ p, OnFreeList s p → R p) ∧ ∀ r s', c.exec sym s = some (r, s') →
      (∀ p, r = some p → p ≠ 0 → R p) ∧ RunIn sym R s' cs

theorem RunIn.head {R : Addr → Prop} {calls : List Call} (h : RunIn sym R s calls)
    (hp : OnFreeList s p) : R p := by
  cases calls with
  | nil => exact h p hp
  | cons c cs => exact h.1 p hp

def InDram (m : Mem) (p : Addr) : Prop :=
  load 64 m (off Layout.sysInfo Layout.SysInfo.drStart) ≤ p ∧
    p.toNat + PGSIZE ≤ (load 64 m (off Layout.sysInfo Layout.SysInfo.drEnd)).toNat

theorem linked_lastPage : off (freeBase linked) (PGSIZE * (freeCount linked - 1)) = 0x88fff000#64 := by decide

theorem lastPage_not_inDram {m : Mem} (hp : load 64 m Layout.sysInfoPtr = Layout.sysInfo) :
    ¬ InDram (Start.enterKernel m).2 0x88fff000#64 := by
  obtain ⟨-, -, -, hend⟩ := Start.enterKernel_spec hp
  rintro ⟨-, h⟩
  rw [hend] at h
  exact absurd h (by decide)

theorem kalloc_of_ne_zero (h : s.freelist ≠ 0) : (kalloc s).1 = s.freelist := by
  rw [kalloc, if_pos h]

/-- The kernel frees memory up to its own `PHYSTOP`, 16 MB beyond the range the bootloader publishes:
after every boot the first page `kalloc` hands out does not exist. -/
theorem kinit_outside_dram (m : Mem) (freelist : Addr)
    (hp : load 64 m Layout.sysInfoPtr = Layout.sysInfo) :
    ∃ s, kinit linked ⟨(Start.enterKernel m).2, freelist⟩ = some s ∧
      ¬ InDram (Start.enterKernel m).2 (kalloc s).1 ∧
      ∀ calls, ¬ RunIn linked (InDram (Start.enterKernel m).2) s calls := by
  obtain ⟨s, h, hfl⟩ := kinit_head linked_fits ⟨(Start.enterKernel m).2, freelist⟩ (by decide)
  rw [linked_lastPage] at hfl
  have h0 : s.freelist ≠ 0 := by
    rw [hfl]
    decide
  have hout := lastPage_not_inDram hp
  refine ⟨s, h, ?_, fun calls hrun => ?_⟩
  · rw [kalloc_of_ne_zero h0, hfl]
    exact hout
  · apply hout
    rw [← hfl]
    exact hrun.head (.here h0)

/-- A machine that has reached the end of `start`. -/
def bootedMem : Mem := Start.handover fun _ => 0

theorem booted_kinit_outside : ∃ s, kinit linked ⟨(Start.enterKernel bootedMem).2, 0⟩ = some s ∧
    ¬ InDram (Start.enterKernel bootedMem).2 (kalloc s).1 ∧
    ∀ calls, ¬ RunIn linked (InDram (Start.enterKernel bootedMem).2) s calls :=
  kinit_outside_dram bootedMem 0 (Start.handover_sysInfoPtr _)

theorem booted_first_kalloc : ∃ s, kinit linked ⟨(Start.enterKernel bootedMem).2, 0⟩ = some s ∧
    (kalloc s).1 = 0x88fff000#64 ∧
    ¬ RunIn linked (InDram (Start.enterKernel bootedMem).2) s [.alloc] := by
  obtain ⟨s, h, hfl⟩ := kinit_head linked_fits ⟨(Start.enterKernel bootedMem).2, 0⟩ (by decide)
  rw [linked_lastPage] at hfl
  have h0 : s.freelist ≠ 0 := by
    rw [hfl]
    decide
  refine ⟨s, h, by rw [kalloc_of_ne_zero h0, hfl], fun hrun => ?_⟩
  have hin := hrun.head (.here h0)
  rw [hfl] at hin
  exact lastPage_not_inDram (Start.handover_sysInfoPtr _) hin

end Xv6Boot.Kernel
