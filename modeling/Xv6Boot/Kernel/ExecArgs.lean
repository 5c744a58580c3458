import Xv6Boot.Kernel.ExecAtomic

/-! # The stack a program starts with

What the new process finds through its page table: the array of argument pointers at `sp`, the strings above it, and
below the stack a page it cannot use.
-/

namespace Xv6Boot.Kernel.Exec
open ByteMemory Pages Program
open Xv6Boot.Kernel.Fs (Superblock)

variable {sym : Symbols} {sb : Superblock} {F : Set ℕ} {E : String → Prop} {s₀ s s' : Machine}
  {root ustack trapframe : Addr} {t₀ t : Pt} {k : Kmem} {sz entry sp : BitVec 64} {v n : ℕ} {path : List Byte}
  {argv : List Addr} {strs : List (List Byte)}

/-- The stack page starts at `base` and is at `pa` in physical memory; string `i` is at `ptr i`. -/
structure ArgStack (p : Proc) (k : Kmem) (strs : List (List Byte)) (sp base pa : Addr) (ptr : ℕ → ℕ) : Prop where
  base_eq : base.toNat + PGSIZE = p.sz.toNat
  page : walkaddr p.pagetable base k = some pa ∧ pa ≠ 0
  a1 : load 64 k.mem (off p.trapframe 120) = sp
  stackPointer : load 64 k.mem (off p.trapframe 48) = sp
  aligned : sp.toNat % 16 = 0
  low : base ≤ sp
  words : ∀ i < strs.length, load 64 k.mem (off pa (sp.toNat - base.toNat + 8 * i)) = BitVec.ofNat 64 (ptr i)
  null : load 64 k.mem (off pa (sp.toNat - base.toNat + 8 * strs.length)) = 0
  ptr_aligned : ∀ i < strs.length, ptr i % 16 = 0
  above_array : ∀ i < strs.length, sp.toNat + 8 * (strs.length + 1) ≤ ptr i
  above_later : ∀ i j str, i < j → strs[j]? = some str → ptr j + (str.length + 1) ≤ ptr i
  string : ∀ i str, strs[i]? = some str → ptr i + (str.length + 1) ≤ p.sz.toNat ∧
    ∀ j ≤ str.length, k.mem (off pa (ptr i - base.toNat + j)) = str.getD j 0
  guard : walkaddr p.pagetable (base - BitVec.ofNat 64 PGSIZE) k = some 0

theorem Image.walkaddr_guard (h : Image sym trapframe root k t n) (hv : v < n) (hu : lookup k.mem t v &&& PTE_U = 0)
    {a : Addr} (ha : a.toNat = 4096 * v) : walkaddr root a k = some 0 := by
  have hle := h.le_trapframe
  rw [vpn_TRAPFRAME] at hle
  have hmax : a < MAXVA := by
    rw [BitVec.lt_def, MAXVA_toNat]
    omega
  have hvpn : vpn a = v := by
    unfold vpn
    omega
  obtain ⟨pte, hwalk, hlook⟩ := h.kpt.walk_lookup hmax
  rw [hvpn] at hlook
  rw [walkaddr, if_neg (BitVec.not_le.mpr hmax), ← h.root, hwalk]
  change (if pte = 0 then some 0 else if load 64 k.mem pte &&& PTE_V = 0 then some 0
    else if load 64 k.mem pte &&& PTE_U = 0 then some 0 else some (PTE2PA (load 64 k.mem pte))) = some 0
  split
  · rfl
  · next h0 =>
    rw [if_neg h0] at hlook
    rw [← hlook, if_pos hu, ite_self]

theorem place_anti (top : ℕ) {i j : ℕ} (hij : i < j) : top - room (strs.take j) ≤ place top strs i := by
  have := room_take_le (strs.take j) (i + 1)
  rw [List.take_take, Nat.min_eq_left (show i + 1 ≤ j from hij)] at this
  unfold place
  omega

theorem place_mod (top i : ℕ) (htop : top % 16 = 0) : place top strs i % 16 = 0 := by
  have := room_mod (strs.take (i + 1))
  unfold place
  omega

theorem Committed.argStack (hsym : sym.Fits) (hc : Committed sym s₀ t₀ strs root sz entry sp v k t) :
    ArgStack (s₀.proc.become path root sz) k strs sp (BitVec.ofNat 64 (4096 * v)) (leafPage k t v)
      (place (4096 * (v + 1)) strs) := by
  have hsp := hc.stack.sp_eq
  have hlow := hc.stack.low
  have hle := le_up16 (8 * (strs.length + 1))
  have hmod := up16_mod (8 * (strs.length + 1))
  have hroom := room_mod strs
  have hpos := hc.guarded.pos
  have hsize := hc.image.toUspace.size_le
  have hbase : (BitVec.ofNat 64 (4096 * v)).toNat = 4096 * v := by
    rw [BitVec.toNat_ofNat]
    have := hc.size
    omega
  have hguard : (BitVec.ofNat 64 (4096 * v) - BitVec.ofNat 64 PGSIZE).toNat = 4096 * (v - 1) := by
    have hpg : (BitVec.ofNat 64 PGSIZE).toNat = 4096 := rfl
    rw [BitVec.toNat_sub_of_le (by rw [BitVec.le_def, hbase, hpg]; omega), hbase, hpg]
    omega
  refine ⟨?_, ⟨hc.image.walkaddr hc.guarded.lt hc.guarded.user hbase, ?_⟩, hc.a1, hc.stackPointer, by omega, ?_, ?_, ?_,
    ?_, ?_, ?_, ?_, ?_⟩
  · rw [hbase]
    exact hc.size.symm
  · exact (hc.image.page v hc.guarded.lt).ne_zero hsym
  · rw [BitVec.le_def, hbase]
    exact hlow
  · rw [hbase]
    exact hc.stack.pointer
  · rw [hbase]
    exact hc.stack.nul
  · exact fun i _ => place_mod _ i (by omega)
  · intro i hi
    have := place_bounds (4096 * (v + 1)) (List.getElem?_eq_getElem hi) (by omega)
    omega
  · intro i j str hij hj
    have h₁ := place_bounds (4096 * (v + 1)) hj (by omega)
    have h₂ : _ ≤ place (4096 * (v + 1)) strs i := place_anti (4096 * (v + 1)) hij
    omega
  · intro i str hi
    have h₁ := place_bounds (4096 * (v + 1)) hi (by omega)
    refine ⟨?_, ?_⟩
    · change _ ≤ sz.toNat
      rw [hc.size]
      omega
    · rw [hbase]
      exact hc.stack.bytes i str hi
  · exact Image.walkaddr_guard hc.image (by have := hc.guarded.lt; omega) hc.guarded.guard hguard

/-- **The arguments.** The second part is about a call that has loaded the program and has a stack for it. -/
theorem exec_arguments (h₀ : Start sym sb F s₀ t₀ argv ustack strs) (path : List Byte) :
    (∀ r s', exec sym sb path argv ustack s₀ = .ok (r, s') → r ≠ -1 →
      r = strs.length ∧ ∃ sp base pa ptr, ArgStack s'.proc s'.mem strs sp base pa ptr) ∧
    ∀ pagetable entry sz s₁, prepare sym sb path s₀ = .ok (some (pagetable, entry, sz), s₁) →
      ∃ r s', exec sym sb path argv ustack s₀ = .ok (r, s') ∧ (r = -1 ↔ PGSIZE < argRoom strs) := by
  constructor
  · intro r s' hrun hr
    obtain ⟨fs, -, ⟨h, -⟩ | ⟨rfl, root, sz, entry, sp, v, k, t, rfl, hc⟩⟩ :=
      (exec_wp (E := fun _ => True) h₀ (fun _ => trivial) path).of_ok hrun
    · exact absurd h hr
    · exact ⟨rfl, sp, _, _, _, hc.argStack h₀.fits⟩
  · exact fun _ _ _ _ hprep => exec_of_prepare h₀ hprep

theorem sample_exec_arguments : ∃ k t₀ s' sp base pa ptr,
    Start linked Fs.treeSb ∅ (sampleMachine Fs.treeState k) t₀ sampleArgv sampleUstack sampleStrs ∧
    exec linked Fs.treeSb [97] sampleArgv sampleUstack (sampleMachine Fs.treeState k) = .ok (2, s') ∧
    ArgStack s'.proc s'.mem sampleStrs sp base pa ptr := by
  obtain ⟨k, t₀, h₀, root, entry, sz, s₁, hprep⟩ := sample_prepare
  obtain ⟨hstack, hfits⟩ := exec_arguments h₀ [97]
  obtain ⟨r, s', hrun, hr⟩ := hfits root entry sz s₁ hprep
  obtain ⟨rfl, sp, base, pa, ptr, h⟩ := hstack r s' hrun fun h1 => sampleStrs_room (hr.mp h1)
  exact ⟨k, t₀, s', sp, base, pa, ptr, h₀, hrun, h⟩

end Xv6Boot.Kernel.Exec
