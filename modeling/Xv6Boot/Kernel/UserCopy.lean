import Xv6Boot.Foundations.Scatter
import Xv6Boot.Kernel.UvmCopy

/-! # `copyout` and `copyin`

Bytes between kernel memory and the pages a table maps for the user, a page at a time. User addresses are taken as
integers, so that a range that passes 2^64 is one that passes `MAXVA`.
-/

namespace Xv6Boot.Kernel
open ByteMemory Loop StringC Pages

variable {s s₁ s' : Kmem} {m m' : Mem} {t : Pt} {root p va : Addr} {v k n j : ℕ} {a b : ℕ} {f : ℕ → Addr}

/-! ## A table, whatever the free list -/

def Shape (m : Mem) (t : Pt) : Prop := Kpt ⟨m, 0⟩ { t with free := [] }

theorem Kpt.shape (h : Kpt s t) : Shape s.mem t where
  table := ⟨h.table.root_mem, h.table.mid_mem, h.table.link⟩
  pool := ⟨rfl, fun _ hq => absurd hq List.not_mem_nil, List.nodup_nil⟩
  low := fun _ hq => absurd hq List.not_mem_nil
  addr_low := h.addr_low
  aligned := h.aligned
  nonzero := h.nonzero
  fresh := fun _ _ => List.not_mem_nil
  inj := h.inj

theorem Shape.frame (h : Shape m t) {X : Set Addr} (hf : Frame X m m')
    (hd : ∀ a ∈ t.dom, Disjoint (page (t.addr a)) X) : Shape m' t ∧ lookup m' t = lookup m t := by
  have hpool : Pool (Kmem.mem ⟨m', 0⟩) (Kmem.freelist ⟨m', 0⟩) [] :=
    ⟨rfl, fun _ hq => absurd hq List.not_mem_nil, List.nodup_nil⟩
  obtain ⟨hk, hmap⟩ := Kpt.transfer h hf hd hpool (fun _ hq => absurd hq List.not_mem_nil) fun _ _ => List.not_mem_nil
  exact ⟨hk, funext hmap⟩

theorem walkLoop_false_eq (m : Mem) (va : Addr) (level : ℕ) (p : Addr) :
    ∃ o, ∀ f, walkLoop false va level p ⟨m, f⟩ = (o, ⟨m, f⟩) := by
  induction level generalizing p with
  | zero => exact ⟨some p, fun _ => rfl⟩
  | succ level ih =>
    by_cases hV : load 64 m (off p (8 * PX (level + 1) va)) &&& PTE_V ≠ 0
    · obtain ⟨o, ho⟩ := ih (PTE2PA (load 64 m (off p (8 * PX (level + 1) va))))
      refine ⟨o, fun f => ?_⟩
      rw [walkLoop, walkLevel]
      simp only [if_pos hV]
      exact ho f
    · refine ⟨none, fun f => ?_⟩
      rw [walkLoop, walkLevel]
      simp only [if_neg hV]
      rfl

theorem Shape.walk (h : Shape s.mem t) (hva : va < MAXVA) :
    ∃ pte, walk (t.addr .root) va false s = some (pte, s) ∧
      ((pte = 0 ∧ lookup s.mem t (vpn va) = 0) ∨ (pte ≠ 0 ∧ load 64 s.mem pte = lookup s.mem t (vpn va))) := by
  obtain ⟨pte, hw, hl⟩ := Kpt.walk_lookup h hva
  obtain ⟨o, ho⟩ := walkLoop_false_eq s.mem va 2 (t.addr .root)
  have hge : ¬ MAXVA ≤ va := BitVec.not_le.mpr hva
  have h0 := ho 0
  have hs : walkLoop false va 2 (t.addr .root) s = (o, s) := ho s.freelist
  rw [Kernel.walk, if_neg hge] at hw
  simp only [h0] at hw
  cases hw
  refine ⟨o.elim 0 fun p => off p (8 * PX 0 va), ?_, ?_⟩
  · rw [Kernel.walk, if_neg hge]
    simp only [hs]
  · by_cases hz : (o.elim 0 fun p => off p (8 * PX 0 va)) = 0
    · rw [if_pos hz] at hl
      exact Or.inl ⟨hz, hl⟩
    · rw [if_neg hz] at hl
      exact Or.inr ⟨hz, hl.symm⟩

/-! ## User addresses -/

def UserPte (pte : BitVec 64) : Prop := pte &&& PTE_V ≠ 0 ∧ pte &&& PTE_U ≠ 0

/-- The page of the address is below `MAXVA` and mapped for the user. -/
def Readable (m : Mem) (t : Pt) (a : ℕ) : Prop := a / PGSIZE < 2 ^ 26 ∧ UserPte (lookup m t (a / PGSIZE))

def Writable (m : Mem) (t : Pt) (a : ℕ) : Prop := Readable m t a ∧ lookup m t (a / PGSIZE) &&& PTE_W ≠ 0

def phys (m : Mem) (t : Pt) (a : ℕ) : Addr := off (PTE2PA (lookup m t (a / PGSIZE))) (a % PGSIZE)

/-- User pages are distinct, none is page 0, and none is a page of the table. -/
structure UserPages (m : Mem) (t : Pt) : Prop where
  shape : Shape m t
  inj : ∀ v < 2 ^ 26, ∀ w < 2 ^ 26, UserPte (lookup m t v) → UserPte (lookup m t w) →
    PTE2PA (lookup m t v) = PTE2PA (lookup m t w) → v = w
  ne_zero : ∀ v < 2 ^ 26, UserPte (lookup m t v) → PTE2PA (lookup m t v) ≠ 0
  not_node : ∀ v < 2 ^ 26, UserPte (lookup m t v) → ∀ a ∈ t.dom, t.addr a ≠ PTE2PA (lookup m t v)

theorem mod_PGSIZE_lt (a : ℕ) : a % PGSIZE < PGSIZE := Nat.mod_lt _ (by decide)

theorem phys_mem_page (m : Mem) (t : Pt) (a : ℕ) : phys m t a ∈ page (PTE2PA (lookup m t (a / PGSIZE))) :=
  off_mem_span _ (mod_PGSIZE_lt a) (lt_trans (mod_PGSIZE_lt a) (by decide))

theorem phys_add (m : Mem) (t : Pt) {i : ℕ} (hi : a % PGSIZE + i < PGSIZE) : phys m t (a + i) = off (phys m t a) i := by
  have hdiv : (a + i) / PGSIZE = a / PGSIZE := by
    unfold PGSIZE at *
    omega
  have hmod : (a + i) % PGSIZE = a % PGSIZE + i := by
    unfold PGSIZE at *
    omega
  rw [phys, phys, hdiv, hmod, off_off]

section Pages
variable (h : UserPages m t)
include h

theorem UserPages.phys_inj (ha : Readable m t a) (hb : Readable m t b) (he : phys m t a = phys m t b) : a = b := by
  have hpage : PTE2PA (lookup m t (a / PGSIZE)) = PTE2PA (lookup m t (b / PGSIZE)) := by
    by_contra hne
    exact Set.disjoint_left.mp (page_disjoint (PTE2PA_aligned _) (PTE2PA_aligned _) hne) (phys_mem_page m t a)
      (he ▸ phys_mem_page m t b)
  have hdiv := h.inj _ ha.1 _ hb.1 ha.2 hb.2 hpage
  rw [phys, phys, hpage] at he
  have hmod := off_injective _ (lt_trans (mod_PGSIZE_lt a) (by decide)) (lt_trans (mod_PGSIZE_lt b) (by decide)) he
  rw [← Nat.div_add_mod a PGSIZE, ← Nat.div_add_mod b PGSIZE, hdiv, hmod]

theorem UserPages.phys_not_node (ha : Readable m t a) {b : Node} (hb : b ∈ t.dom) : phys m t a ∉ page (t.addr b) := by
  have hd := page_disjoint (h.shape.aligned b hb) (PTE2PA_aligned _) (h.not_node _ ha.1 ha.2 b hb)
  exact fun hin => Set.disjoint_left.mp hd hin (phys_mem_page m t a)

end Pages

/-! ## One turn -/

theorem PGROUNDDOWN_toNat (a : Addr) : (PGROUNDDOWN a).toNat = a.toNat / 4096 * 4096 := by
  have := a.isLt
  rw [PGROUNDDOWN, and_not_mask, BitVec.toNat_ofNat]
  omega

theorem sub_PGROUNDDOWN (a : Addr) : (a - PGROUNDDOWN a).toNat = a.toNat % 4096 := by
  have hle : PGROUNDDOWN a ≤ a := by
    rw [BitVec.le_def, PGROUNDDOWN_toNat]
    omega
  rw [BitVec.toNat_sub_of_le hle, PGROUNDDOWN_toNat]
  omega

theorem chunk_toNat (a len : Addr) :
    (if BitVec.ofNat 64 PGSIZE - (a - PGROUNDDOWN a) > len then len
      else BitVec.ofNat 64 PGSIZE - (a - PGROUNDDOWN a)).toNat = min (4096 - a.toNat % 4096) len.toNat := by
  have hsub := sub_PGROUNDDOWN a
  have hrest : (BitVec.ofNat 64 PGSIZE - (a - PGROUNDDOWN a)).toNat = 4096 - a.toNat % 4096 := by
    have hle : a - PGROUNDDOWN a ≤ BitVec.ofNat 64 PGSIZE := by
      rw [BitVec.le_def, hsub, show (BitVec.ofNat 64 PGSIZE).toNat = 4096 from rfl]
      omega
    rw [BitVec.toNat_sub_of_le hle, hsub]
    rfl
  split
  · next hgt =>
    have := BitVec.lt_def.mp hgt
    omega
  · next hle =>
    have := BitVec.le_def.mp (BitVec.not_lt.mp hle)
    omega

theorem vpn_PGROUNDDOWN (a : Addr) : vpn (PGROUNDDOWN a) = a.toNat / PGSIZE := by
  rw [vpn, PGROUNDDOWN_toNat]
  unfold PGSIZE
  omega

theorem PGROUNDDOWN_lt_iff {a : Addr} : PGROUNDDOWN a < MAXVA ↔ a.toNat / PGSIZE < 2 ^ 26 := by
  rw [lt_MAXVA_iff, vpn_PGROUNDDOWN]

theorem add_eq_off (a x : Addr) : a + x = off a x.toNat := by rw [off, BitVec.ofNat_toNat, BitVec.setWidth_eq]

theorem next_page {a : Addr} (h : a.toNat / PGSIZE < 2 ^ 26) :
    (PGROUNDDOWN a + BitVec.ofNat 64 PGSIZE).toNat = a.toNat + (4096 - a.toNat % 4096) := by
  unfold PGSIZE at *
  rw [BitVec.toNat_add, PGROUNDDOWN_toNat, show (BitVec.ofNat 64 4096).toNat = 4096 from rfl]
  omega

theorem phys_eq (m : Mem) (t : Pt) (a : Addr) :
    PTE2PA (lookup m t (a.toNat / PGSIZE)) + (a - PGROUNDDOWN a) = phys m t a.toNat := by
  rw [add_eq_off, sub_PGROUNDDOWN]
  rfl

theorem Moved.memmove {m₀ : Mem} {d : ℕ → Addr} (h : Moved m₀ d f j m) (hn : n < 2 ^ 64)
    (hd : ∀ i < n, d (j + i) = off (d j) i) (hf : ∀ i < n, f (j + i) = off (f j) i)
    (hdd : ∀ k < j, ∀ i < n, d k ≠ d (j + i)) (hdf : ∀ k < j + n, ∀ i < n, d k ≠ f (j + i)) :
    Moved m₀ d f (j + n) (memmove m (d j) (f j) n) := by
  rw [memmove_apart m hn fun i hi k hk => by
    rw [← hd i hi, ← hf k hk]
    exact hdf _ (by omega) k hk]
  exact h.stretch hn.le hd hf hdd fun k hk => hdf k (by omega)

/-! ## `copyout` -/

theorem copyoutLoop_turn (fuel : ℕ) (dstva src pte : Addr) (len n : BitVec 64) (hpos : 0 < len)
    (hmax : PGROUNDDOWN dstva < MAXVA) (hwalk : walk root (PGROUNDDOWN dstva) false s = some (pte, s)) (hne : pte ≠ 0)
    (huser : UserPte (load 64 s.mem pte)) (hwrite : load 64 s.mem pte &&& PTE_W ≠ 0)
    (hn : (if BitVec.ofNat 64 PGSIZE - (dstva - PGROUNDDOWN dstva) > len then len else BitVec.ofNat 64 PGSIZE -
      (dstva - PGROUNDDOWN dstva)) = n) :
    copyoutLoop root (fuel + 1) dstva src len s =
      copyoutLoop root fuel (PGROUNDDOWN dstva + BitVec.ofNat 64 PGSIZE) (src + n) (len - n)
        ⟨memmove s.mem (PTE2PA (load 64 s.mem pte) + (dstva - PGROUNDDOWN dstva)) src n.toNat, s.freelist⟩ := by
  have hge : ¬ MAXVA ≤ PGROUNDDOWN dstva := BitVec.not_le.mpr hmax
  have hcond : ¬ (pte = 0 ∨ load 64 s.mem pte &&& PTE_V = 0 ∨ load 64 s.mem pte &&& PTE_U = 0 ∨
      load 64 s.mem pte &&& PTE_W = 0) := by
    rintro (h | h | h | h)
    · exact hne h
    · exact huser.1 h
    · exact huser.2 h
    · exact hwrite h
  rw [copyoutLoop, if_pos hpos]
  simp only
  rw [if_neg hge, hwalk]
  simp only [Option.bind_eq_bind, Option.bind_some]
  rw [if_neg hcond, hn]

theorem copyoutLoop_fails (fuel : ℕ) (dstva src pte : Addr) (len : BitVec 64) (hpos : 0 < len)
    (hmax : PGROUNDDOWN dstva < MAXVA) (hwalk : walk root (PGROUNDDOWN dstva) false s = some (pte, s))
    (hno : pte ≠ 0 → ¬ (UserPte (load 64 s.mem pte) ∧ load 64 s.mem pte &&& PTE_W ≠ 0)) :
    copyoutLoop root (fuel + 1) dstva src len s = some (-1, s) := by
  have hge : ¬ MAXVA ≤ PGROUNDDOWN dstva := BitVec.not_le.mpr hmax
  rw [copyoutLoop, if_pos hpos]
  simp only
  rw [if_neg hge, hwalk]
  simp only [Option.bind_eq_bind, Option.bind_some]
  refine if_pos ?_
  by_contra hcon
  push Not at hcon
  exact hno hcon.1 ⟨⟨hcon.2.1, hcon.2.2.1⟩, hcon.2.2.2⟩

/-- What `copyout` has done when it ends: the first `j` bytes are written, and either these are all or the next one is
not writable. -/
structure CopiedOut (s : Kmem) (t : Pt) (dstva src : Addr) (len : ℕ) (j : ℕ) (r : ℤ) (s' : Kmem) : Prop where
  writable : ∀ k < j, Writable s.mem t (dstva.toNat + k)
  ends : (r = 0 ∧ j = len) ∨ (r = -1 ∧ j < len ∧ ¬ Writable s.mem t (dstva.toNat + j))
  moved : Moved s.mem (fun k => phys s.mem t (dstva.toNat + k)) (off src) j s'.mem
  freelist : s'.freelist = s.freelist

section Out
variable {dstva src : Addr} {len : BitVec 64} (h : UserPages s.mem t) (hroot : t.addr .root = root)
  (hap : ∀ k < len.toNat, Writable s.mem t (dstva.toNat + k) → ∀ i < len.toNat, phys s.mem t (dstva.toNat + k) ≠ off src i)
include h

theorem UserPages.shape_moved (hread : ∀ k < j, Readable s.mem t (dstva.toNat + k))
    (hm : Moved s.mem (fun k => phys s.mem t (dstva.toNat + k)) f j m) : Shape m t ∧ lookup m t = lookup s.mem t := by
  refine h.shape.frame hm.frame fun a ha => Set.disjoint_left.mpr ?_
  rintro x hx ⟨k, hk, rfl⟩
  exact h.phys_not_node (hread k hk) ha hx

omit h in
theorem Writable.congr (hw : Writable m t a) (he : b / PGSIZE = a / PGSIZE) : Writable m t b := by
  unfold Writable Readable at *
  rw [he]
  exact hw

include hap

theorem UserPages.copyout_turn (hw : ∀ k < j, Writable s.mem t (dstva.toNat + k))
    (hm : Moved s.mem (fun k => phys s.mem t (dstva.toNat + k)) (off src) j m)
    (ha : Writable s.mem t (dstva.toNat + j)) (hn : n ≤ 4096 - (dstva.toNat + j) % 4096) (hle : j + n ≤ len.toNat) :
    (∀ k < j + n, Writable s.mem t (dstva.toNat + k)) ∧
      Moved s.mem (fun k => phys s.mem t (dstva.toNat + k)) (off src) (j + n)
        (memmove m (phys s.mem t (dstva.toNat + j)) (off src j) n) := by
  have hlen := len.isLt
  have hall : ∀ k < j + n, Writable s.mem t (dstva.toNat + k) := by
    intro k hk
    by_cases hlt : k < j
    · exact hw k hlt
    · refine ha.congr ?_
      unfold PGSIZE
      omega
  have hnext : ∀ i < n, phys s.mem t (dstva.toNat + (j + i)) = off (phys s.mem t (dstva.toNat + j)) i := by
    intro i hi
    rw [← Nat.add_assoc]
    refine phys_add _ _ ?_
    unfold PGSIZE
    omega
  refine ⟨hall, Moved.memmove hm (by omega) hnext (fun i _ => (off_off src j i).symm) ?_ ?_⟩
  · intro k hk i hi he
    have := h.phys_inj (hall k (by omega)).1 (hall (j + i) (by omega)).1 he
    omega
  · exact fun k hk i hi => hap k (by omega) (hall k hk) _ (by omega)

include hroot

/-- The loop of `copyout`, by induction on its turns. -/
theorem UserPages.copyoutLoop (fuel : ℕ) (dstva₁ src₁ : Addr) (len₁ : BitVec 64) (hw : ∀ k < j, Writable s.mem t
    (dstva.toNat + k))
    (hm : Moved s.mem (fun k => phys s.mem t (dstva.toNat + k)) (off src) j s₁.mem) (hfl : s₁.freelist = s.freelist)
    (hj : j ≤ len.toNat) (hdst : j < len.toNat → dstva₁.toNat = dstva.toNat + j) (hsrc : src₁ = off src j)
    (hlen : len₁.toNat = len.toNat - j) (hfuel : len.toNat < j + fuel) :
    ∃ j r s', copyoutLoop root fuel dstva₁ src₁ len₁ s₁ = some (r, s') ∧ CopiedOut s t dstva src len.toNat j r s' := by
  induction fuel generalizing j s₁ dstva₁ src₁ len₁ with
  | zero => omega
  | succ fuel ih =>
    by_cases hpos : 0 < len₁
    · have hpos' : 0 < len₁.toNat := BitVec.lt_def.mp hpos
      have hjlt : j < len.toNat := by omega
      have ha := hdst hjlt
      obtain ⟨hshape, hmap⟩ := h.shape_moved (fun k hk => (hw k hk).1) hm
      have hfail : ¬ Writable s.mem t (dstva.toNat + j) → CopiedOut s t dstva src len.toNat j (-1) s₁ := fun hnot =>
        ⟨hw, Or.inr ⟨rfl, hjlt, hnot⟩, hm, hfl⟩
      by_cases hmax : PGROUNDDOWN dstva₁ < MAXVA
      · have hlt := PGROUNDDOWN_lt_iff.mp hmax
        obtain ⟨pte, hwalk, hpte⟩ := hshape.walk hmax
        rw [hmap, vpn_PGROUNDDOWN, ha] at hpte
        rw [hroot] at hwalk
        by_cases hwr : Writable s.mem t (dstva.toNat + j)
        · obtain ⟨hne, hl⟩ : pte ≠ 0 ∧ load 64 s₁.mem pte = lookup s.mem t ((dstva.toNat + j) / PGSIZE) := by
            rcases hpte with ⟨_, hl⟩ | hl
            · have hV := hwr.1.2.1
              rw [hl] at hV
              exact absurd rfl hV
            · exact hl
          have hchunk := chunk_toNat dstva₁ len₁
          have hphys := phys_eq s.mem t dstva₁
          have hpage := next_page hlt
          rw [ha] at hchunk hphys hpage
          rw [copyoutLoop_turn fuel dstva₁ src₁ pte len₁ _ hpos hmax hwalk hne (hl ▸ hwr.1.2) (hl ▸ hwr.2) rfl, hl, hphys,
            hsrc]
          generalize (if BitVec.ofNat 64 PGSIZE - (dstva₁ - PGROUNDDOWN dstva₁) > len₁ then len₁
            else BitVec.ofNat 64 PGSIZE - (dstva₁ - PGROUNDDOWN dstva₁)) = n at hchunk ⊢
          obtain ⟨hw', hm'⟩ := h.copyout_turn hap hw hm hwr (n := n.toNat) (by omega) (by omega)
          refine ih _ _ _ hw' hm' hfl (by omega) ?_ ?_ ?_ (by omega)
          · intro _
            rw [hpage]
            omega
          · rw [add_eq_off, off_off]
          · rw [BitVec.toNat_sub_of_le (BitVec.le_def.mpr (by omega))]
            omega
        · refine ⟨j, -1, s₁, copyoutLoop_fails fuel dstva₁ src₁ pte len₁ hpos hmax hwalk fun hne hyes => hwr ?_, hfail hwr⟩
          rcases hpte with ⟨hz, _⟩ | ⟨_, hl⟩
          · exact absurd hz hne
          · rw [hl] at hyes
            exact ⟨⟨ha ▸ hlt, hyes.1⟩, hyes.2⟩
      · have hge : MAXVA ≤ PGROUNDDOWN dstva₁ := BitVec.not_lt.mp hmax
        refine ⟨j, -1, s₁, ?_, hfail ?_⟩
        · rw [Kernel.copyoutLoop, if_pos hpos]
          exact if_pos hge
        · rintro ⟨⟨hlt, _⟩, _⟩
          rw [← ha] at hlt
          exact hmax (PGROUNDDOWN_lt_iff.mpr hlt)
    · have hzero : ¬ 0 < len₁.toNat := fun h0 => hpos (BitVec.lt_def.mpr h0)
      rw [Kernel.copyoutLoop, if_neg hpos]
      exact ⟨j, 0, s₁, rfl, hw, Or.inl ⟨rfl, by omega⟩, hm, hfl⟩

end Out

/-! ## `copyin` -/

theorem Shape.walkaddr_readable (h : Shape s.mem t) {a : Addr} (ha : Readable s.mem t a.toNat) :
    walkaddr (t.addr .root) (PGROUNDDOWN a) s = some (PTE2PA (lookup s.mem t (a.toNat / PGSIZE))) := by
  have hmax := PGROUNDDOWN_lt_iff.mpr ha.1
  have hge : ¬ MAXVA ≤ PGROUNDDOWN a := BitVec.not_le.mpr hmax
  obtain ⟨pte, hwalk, hpte⟩ := h.walk hmax
  rw [vpn_PGROUNDDOWN] at hpte
  rw [walkaddr, if_neg hge, hwalk]
  simp only [Option.bind_eq_bind, Option.bind_some]
  rcases hpte with ⟨_, hl⟩ | ⟨hne, hl⟩
  · have hV := ha.2.1
    rw [hl] at hV
    exact absurd rfl hV
  · rw [if_neg hne, hl, if_neg ha.2.1, if_neg ha.2.2]

theorem Shape.walkaddr_not (h : Shape s.mem t) {a : Addr} (ha : ¬ Readable s.mem t a.toNat) :
    walkaddr (t.addr .root) (PGROUNDDOWN a) s = some 0 := by
  by_cases hmax : PGROUNDDOWN a < MAXVA
  · have hge : ¬ MAXVA ≤ PGROUNDDOWN a := BitVec.not_le.mpr hmax
    obtain ⟨pte, hwalk, hpte⟩ := h.walk hmax
    rw [vpn_PGROUNDDOWN] at hpte
    rw [walkaddr, if_neg hge, hwalk]
    simp only [Option.bind_eq_bind, Option.bind_some]
    rcases hpte with ⟨hz, _⟩ | ⟨hne, hl⟩
    · rw [if_pos hz]
    · rw [if_neg hne, hl]
      by_cases hV : lookup s.mem t (a.toNat / PGSIZE) &&& PTE_V = 0
      · rw [if_pos hV]
      · by_cases hU : lookup s.mem t (a.toNat / PGSIZE) &&& PTE_U = 0
        · rw [if_neg hV, if_pos hU]
        · exact absurd ⟨PGROUNDDOWN_lt_iff.mp hmax, hV, hU⟩ ha
  · have hge : MAXVA ≤ PGROUNDDOWN a := BitVec.not_lt.mp hmax
    rw [walkaddr, if_pos hge]

theorem Readable.congr (hr : Readable m t a) (he : b / PGSIZE = a / PGSIZE) : Readable m t b := by
  unfold Readable at *
  rw [he]
  exact hr

/-- What `copyin` has done when it ends. -/
structure CopiedIn (s : Kmem) (t : Pt) (dst srcva : Addr) (len : ℕ) (j : ℕ) (r : ℤ) (s' : Kmem) : Prop where
  readable : ∀ k < j, Readable s.mem t (srcva.toNat + k)
  ends : (r = 0 ∧ j = len) ∨ (r = -1 ∧ j < len ∧ ¬ Readable s.mem t (srcva.toNat + j))
  moved : Moved s.mem (off dst) (fun k => phys s.mem t (srcva.toNat + k)) j s'.mem
  freelist : s'.freelist = s.freelist

/-- The buffer shares no byte with the table and with the user bytes that are read. -/
structure Buffer (s : Kmem) (t : Pt) (dst srcva : Addr) (len : ℕ) : Prop where
  not_node : ∀ i < len, ∀ a ∈ t.dom, off dst i ∉ page (t.addr a)
  apart : ∀ i < len, ∀ k < len, Readable s.mem t (srcva.toNat + k) → off dst i ≠ phys s.mem t (srcva.toNat + k)

section In
variable {dst srcva : Addr} {len : BitVec 64} (h : UserPages s.mem t) (hroot : t.addr .root = root)
  (hb : Buffer s t dst srcva len.toNat)
include hb

theorem Buffer.shape_moved (hs : Shape s.mem t) (hj : j ≤ len.toNat) (hm : Moved s.mem (off dst) f j m) :
    Shape m t ∧ lookup m t = lookup s.mem t := by
  refine hs.frame hm.frame fun a ha => Set.disjoint_left.mpr ?_
  rintro x hx ⟨k, hk, rfl⟩
  exact hb.not_node k (by omega) a ha hx

theorem Buffer.copyin_turn (hr : ∀ k < j, Readable s.mem t (srcva.toNat + k))
    (hm : Moved s.mem (off dst) (fun k => phys s.mem t (srcva.toNat + k)) j m)
    (ha : Readable s.mem t (srcva.toNat + j)) (hn : n ≤ 4096 - (srcva.toNat + j) % 4096) (hle : j + n ≤ len.toNat) :
    (∀ k < j + n, Readable s.mem t (srcva.toNat + k)) ∧
      Moved s.mem (off dst) (fun k => phys s.mem t (srcva.toNat + k)) (j + n)
        (memmove m (off dst j) (phys s.mem t (srcva.toNat + j)) n) := by
  have hlen := len.isLt
  have hall : ∀ k < j + n, Readable s.mem t (srcva.toNat + k) := by
    intro k hk
    by_cases hlt : k < j
    · exact hr k hlt
    · refine ha.congr ?_
      unfold PGSIZE
      omega
  refine ⟨hall, Moved.memmove hm (by omega) (fun i _ => (off_off dst j i).symm) (fun i hi => ?_) ?_ ?_⟩
  · rw [← Nat.add_assoc]
    refine phys_add _ _ ?_
    unfold PGSIZE
    omega
  · intro k hk i hi he
    have := off_injective dst (by omega) (by omega) he
    omega
  · exact fun k hk i hi => hb.apart k (by omega) _ (by omega) (hall _ (by omega))

include h hroot

/-- The loop of `copyin`, by induction on its turns. -/
theorem UserPages.copyinLoop (fuel : ℕ) (dst₁ srcva₁ : Addr) (len₁ : BitVec 64) (hr : ∀ k < j, Readable s.mem t
    (srcva.toNat + k))
    (hm : Moved s.mem (off dst) (fun k => phys s.mem t (srcva.toNat + k)) j s₁.mem) (hfl : s₁.freelist = s.freelist)
    (hj : j ≤ len.toNat) (hdst : dst₁ = off dst j) (hsrc : j < len.toNat → srcva₁.toNat = srcva.toNat + j)
    (hlen : len₁.toNat = len.toNat - j) (hfuel : len.toNat < j + fuel) :
    ∃ j r s', copyinLoop root fuel dst₁ srcva₁ len₁ s₁ = some (r, s') ∧ CopiedIn s t dst srcva len.toNat j r s' := by
  induction fuel generalizing j s₁ dst₁ srcva₁ len₁ with
  | zero => omega
  | succ fuel ih =>
    rw [Kernel.copyinLoop]
    by_cases hpos : 0 < len₁
    · have hpos' : 0 < len₁.toNat := BitVec.lt_def.mp hpos
      have hjlt : j < len.toNat := by omega
      have ha := hsrc hjlt
      obtain ⟨hshape, hmap⟩ := hb.shape_moved h.shape hj hm
      rw [if_pos hpos]
      simp only
      by_cases hrd : Readable s.mem t (srcva.toNat + j)
      · have hrd' : Readable s₁.mem t srcva₁.toNat := by
          unfold Readable
          rw [hmap, ha]
          exact hrd
        have hwalk := hshape.walkaddr_readable hrd'
        have hchunk := chunk_toNat srcva₁ len₁
        have hphys := phys_eq s.mem t srcva₁
        have hpage := next_page hrd'.1
        rw [hroot, hmap, ha] at hwalk
        rw [ha] at hchunk hphys hpage
        rw [hwalk]
        simp only [Option.bind_eq_bind, Option.bind_some]
        rw [if_neg (h.ne_zero _ hrd.1 hrd.2), hphys, hdst]
        generalize (if BitVec.ofNat 64 PGSIZE - (srcva₁ - PGROUNDDOWN srcva₁) > len₁ then len₁
          else BitVec.ofNat 64 PGSIZE - (srcva₁ - PGROUNDDOWN srcva₁)) = n at hchunk ⊢
        obtain ⟨hr', hm'⟩ := hb.copyin_turn hr hm hrd (n := n.toNat) (by omega) (by omega)
        refine ih _ _ _ hr' hm' hfl (by omega) ?_ ?_ ?_ (by omega)
        · rw [add_eq_off, off_off]
        · intro _
          rw [hpage]
          omega
        · rw [BitVec.toNat_sub_of_le (BitVec.le_def.mpr (by omega))]
          omega
      · have hrd' : ¬ Readable s₁.mem t srcva₁.toNat := by
          unfold Readable
          rw [hmap, ha]
          exact hrd
        have hwalk := hshape.walkaddr_not hrd'
        rw [hroot] at hwalk
        rw [hwalk]
        simp only [Option.bind_eq_bind, Option.bind_some]
        exact ⟨j, -1, s₁, if_pos trivial, hr, Or.inr ⟨rfl, hjlt, hrd⟩, hm, hfl⟩
    · have hzero : ¬ 0 < len₁.toNat := fun h0 => hpos (BitVec.lt_def.mpr h0)
      rw [if_neg hpos]
      exact ⟨j, 0, s₁, rfl, hr, Or.inl ⟨rfl, by omega⟩, hm, hfl⟩

end In

/-! ## Both -/

/-- **`copyout` and `copyin` respect the user mapping.** -/
theorem copies_respect_mapping (h : UserPages s.mem t) (hroot : t.addr .root = root) (len : BitVec 64) :
    (∀ dstva src : Addr, (∀ k < len.toNat, Writable s.mem t (dstva.toNat + k) →
        ∀ i < len.toNat, phys s.mem t (dstva.toNat + k) ≠ off src i) →
      ∃ j r s', copyout root dstva src len s = some (r, s') ∧
        (r = 0 ↔ ∀ k < len.toNat, Writable s.mem t (dstva.toNat + k)) ∧ CopiedOut s t dstva src len.toNat j r s') ∧
    ∀ dst srcva : Addr, Buffer s t dst srcva len.toNat →
      ∃ j r s', copyin root dst srcva len s = some (r, s') ∧
        (r = 0 ↔ ∀ k < len.toNat, Readable s.mem t (srcva.toNat + k)) ∧ CopiedIn s t dst srcva len.toNat j r s' := by
  refine ⟨fun dstva src hap => ?_, fun dst srcva hb => ?_⟩
  · obtain ⟨j, r, s', hrun, hc⟩ := h.copyoutLoop hroot hap (len.toNat + 1) dstva src len
      (fun _ hk => absurd hk (Nat.not_lt_zero _)) (Moved.zero _ _ _) rfl (Nat.zero_le _) (fun _ => rfl) (off_zero src).symm
      rfl (by omega)
    refine ⟨j, r, s', hrun, ?_, hc⟩
    rcases hc.ends with ⟨rfl, rfl⟩ | ⟨rfl, hlt, hnot⟩
    · exact ⟨fun _ => hc.writable, fun _ => rfl⟩
    · exact ⟨fun h0 => absurd h0 (by decide), fun hall => absurd (hall j hlt) hnot⟩
  · obtain ⟨j, r, s', hrun, hc⟩ := h.copyinLoop hroot hb (len.toNat + 1) dst srcva len
      (fun _ hk => absurd hk (Nat.not_lt_zero _)) (Moved.zero _ _ _) rfl (Nat.zero_le _) (off_zero dst).symm (fun _ => rfl)
      rfl (by omega)
    refine ⟨j, r, s', hrun, ?_, hc⟩
    rcases hc.ends with ⟨rfl, rfl⟩ | ⟨rfl, hlt, hnot⟩
    · exact ⟨fun _ => hc.readable, fun _ => rfl⟩
    · exact ⟨fun h0 => absurd h0 (by decide), fun hall => absurd (hall j hlt) hnot⟩

theorem booted_userPages {perm : BitVec 64} (hperm : PTE2PA (PA2PTE KERNBASE ||| perm ||| PTE_V) = KERNBASE) :
    ∃ root s t, Known linked root s t ∧ UserPages s.mem t ∧ lookup s.mem t = mapRange (fun _ => 0) 0 1 KERNBASE perm := by
  obtain ⟨root, s, t, _, _, h, _, hmap⟩ := booted_parent perm
  have huser : ∀ v, UserPte (lookup s.mem t v) → v = 0 := by
    intro v hv
    by_contra hne
    have hz : lookup s.mem t v = 0 := by
      rw [hmap, mapRange_of_not_mem (by omega)]
    exact hv.1 (by rw [hz]; rfl)
  have hpa : PTE2PA (lookup s.mem t 0) = KERNBASE := by
    rw [hmap]
    exact hperm
  refine ⟨root, s, t, h, ⟨h.kpt.shape, ?_, ?_, ?_⟩, hmap⟩
  · exact fun v _ w _ hv hw _ => (huser v hv).trans (huser w hw).symm
  · intro v _ hv
    rw [huser v hv, hpa]
    decide
  · intro v _ hv a ha he
    have hge := (h.isPage _ (Pt.addr_mem_own ha)).ge_end
    rw [he, huser v hv, hpa] at hge
    revert hge
    decide

theorem booted_buffer : ∃ root s t, t.addr .root = root ∧ UserPages s.mem t ∧
    Buffer s t 0x1000#64 0 (16 : BitVec 64).toNat ∧
    ∀ k < (16 : BitVec 64).toNat, Readable s.mem t ((0 : Addr).toNat + k) := by
  obtain ⟨root, s, t, hknown, h, hmap⟩ := booted_userPages
    (show PTE2PA (PA2PTE KERNBASE ||| (PTE_R ||| PTE_U) ||| PTE_V) = KERNBASE by decide)
  have hlen : (16 : BitVec 64).toNat = 16 := rfl
  have hzero : (0 : Addr).toNat = 0 := rfl
  have hpage : ∀ k < 16, k / PGSIZE = 0 := by
    intro k hk
    unfold PGSIZE
    omega
  have hbuf : ∀ i < 16, (off 0x1000#64 i).toNat = 0x1000 + i := fun i hi => off_toNat _ _ (by
    rw [show (0x1000#64).toNat = 0x1000 from rfl]
    omega)
  rw [hlen, hzero]
  refine ⟨root, s, t, hknown.root, h, ⟨?_, ?_⟩, ?_⟩
  · intro i hi a ha hin
    have hge := BitVec.le_def.mp (hknown.isPage _ (Pt.addr_mem_own ha)).ge_end
    have hal := (hknown.isPage _ (Pt.addr_mem_own ha)).aligned
    have := (mem_span_toNat hal.toNat_le).mp hin
    rw [hbuf i hi] at this
    rw [show linked.endAddr.toNat = 0x81019000 from rfl] at hge
    omega
  · intro i hi k hk _ he
    have hphys : phys s.mem t ((0 : Addr).toNat + k) = off KERNBASE k := by
      have hmod : k % PGSIZE = k := by
        unfold PGSIZE
        omega
      rw [hzero, Nat.zero_add, phys, hpage k hk, hmod, hmap]
      rfl
    have hto := congrArg BitVec.toNat he
    rw [hphys, hbuf i hi, off_toNat _ _ (by rw [show KERNBASE.toNat = 0x81000000 from rfl]; omega),
      show KERNBASE.toNat = 0x81000000 from rfl] at hto
    omega
  · intro k hk
    unfold Readable UserPte
    rw [Nat.zero_add, hpage k hk, hmap]
    decide

theorem booted_copyin : ∃ root s t, UserPages s.mem t ∧ t.addr .root = root ∧
    ∃ s', copyin root 0x1000#64 0 16 s = some (0, s') := by
  obtain ⟨root, s, t, hroot, h, hb, hread⟩ := booted_buffer
  obtain ⟨_, r, s', hrun, hiff, _⟩ := (copies_respect_mapping h hroot 16).2 0x1000#64 0 hb
  have hr := hiff.mpr hread
  subst hr
  exact ⟨root, s, t, h, hroot, s', hrun⟩

/-- The root of the table is mapped as user page 0, and zeros are copied over it: page 1 cannot be reached any more. -/
theorem root_overwritten : ∃ s s' t, Known linked 0x88fff000#64 s t ∧
    (∀ v < 2 ^ 26, UserPte (lookup s.mem t v) → PTE2PA (lookup s.mem t v) ≠ 0 ∧
      ∀ w < 2 ^ 26, UserPte (lookup s.mem t w) → PTE2PA (lookup s.mem t v) = PTE2PA (lookup s.mem t w) → v = w) ∧
    (∀ k < 4097, Writable s.mem t (0 + k)) ∧ copyout 0x88fff000#64 0 0x1000#64 4097 s = some (-1, s') := by
  obtain ⟨s, t, _, h, hmap, _, hf⟩ := first_pages threeFree_pool threePages_isPage le_rfl 0x88fff000#64
    (PTE_R ||| PTE_W ||| PTE_U) Nat.two_pos (by decide)
  have hpages : ∀ v, UserPte (lookup s.mem t v) → v = 0 ∨ v = 1 := by
    intro v hv
    by_contra hne
    have hz : lookup s.mem t v = 0 := by
      rw [hmap, mapRange_of_not_mem (by omega)]
    exact hv.1 (by rw [hz]; rfl)
  have h0 : lookup s.mem t 0 = PA2PTE 0x88fff000#64 ||| (PTE_R ||| PTE_W ||| PTE_U) ||| PTE_V := by
    rw [hmap]
    rfl
  have h1 : lookup s.mem t 1 = PA2PTE 0x89000000#64 ||| (PTE_R ||| PTE_W ||| PTE_U) ||| PTE_V := by
    rw [hmap]
    rfl
  -- the root holds the zeros of the page at 0x1000 after the first turn
  have hsrc : load 64 s.mem 0x1000#64 = 0 := by
    have hd : Disjoint (page 0x1000#64) (region threePages.toFinset) := by
      refine page_disjoint_region (fun q hq => (threePages_isPage q (List.mem_toFinset.mp hq)).aligned) (by decide) ?_
      decide
    rw [hf.load_eq (hd.mono_left (first_word_subset_page _)) (by decide)]
    decide
  have hmax : (0 : Addr) < MAXVA := by decide
  obtain ⟨pte, hwalk, hpte⟩ := h.kpt.shape.walk hmax
  obtain ⟨hne, hl⟩ : pte ≠ 0 ∧ load 64 s.mem pte = lookup s.mem t 0 := by
    rcases hpte with ⟨_, hl⟩ | hl
    · rw [show vpn 0 = 0 from rfl, h0] at hl
      exact absurd hl (by decide)
    · exact hl
  rw [h.root] at hwalk
  have hturn := copyoutLoop_turn 4097 0 0x1000#64 pte 4097 4096 (by decide) hmax hwalk hne
    (by rw [hl, h0]; exact ⟨by decide, by decide⟩) (by rw [hl, h0]; decide) (by decide)
  rw [hl, h0, show PTE2PA (PA2PTE 0x88fff000#64 ||| (PTE_R ||| PTE_W ||| PTE_U) ||| PTE_V) + (0 - PGROUNDDOWN 0) =
    0x88fff000#64 by decide] at hturn
  have hmove : load 64 (memmove s.mem 0x88fff000#64 0x1000#64 (4096 : BitVec 64).toNat) 0x88fff000#64 = 0 := by
    rw [← hsrc]
    refine load_congr fun k hk => ?_
    have hk' : k < 8 := hk
    exact memmove_off _ _ _ (by decide) (by decide) (by rw [show (4096 : BitVec 64).toNat = 4096 from rfl]; omega)
  have hinv : load 64 (memmove s.mem 0x88fff000#64 0x1000#64 (4096 : BitVec 64).toNat) 0x88fff000#64 &&& PTE_V = 0 := by
    rw [hmove]
    rfl
  generalize memmove s.mem 0x88fff000#64 0x1000#64 (4096 : BitVec 64).toNat = m at hturn hinv
  have hlast : copyoutLoop 0x88fff000#64 4097 0x1000#64 0x2000#64 1 ⟨m, s.freelist⟩ = some (-1, ⟨m, s.freelist⟩) :=
    copyoutLoop_fails 4096 0x1000#64 0x2000#64 0 1 (by decide) (by decide) (walk_of_invalid (by decide) hinv)
      fun hz => absurd rfl hz
  refine ⟨s, ⟨m, s.freelist⟩, t, h, ?_, ?_, hturn.trans hlast⟩
  · intro v _ hv
    rcases hpages v hv with rfl | rfl
    · rw [h0]
      refine ⟨by decide, fun w _ hw he => ?_⟩
      rcases hpages w hw with rfl | rfl
      · rfl
      · rw [h1] at he
        exact absurd he (by decide)
    · rw [h1]
      refine ⟨by decide, fun w _ hw he => ?_⟩
      rcases hpages w hw with rfl | rfl
      · rw [h0] at he
        exact absurd he (by decide)
      · rfl
  · intro k hk
    have hpage : (0 + k) / PGSIZE = 0 ∨ (0 + k) / PGSIZE = 1 := by
      unfold PGSIZE
      omega
    unfold Writable Readable UserPte
    rcases hpage with hp | hp
    · rw [hp, h0]
      decide
    · rw [hp, h1]
      decide

end Xv6Boot.Kernel
