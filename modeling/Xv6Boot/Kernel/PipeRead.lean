import Xv6Boot.Kernel.Pipe
import Xv6Boot.Kernel.UserCopy

/-! # `piperead` and the memory of the reader

The loop of `piperead` with the lock held: each byte goes from the ring to a variable on the kernel's stack and from there,
by `copyout`, to the reader.
-/

namespace Xv6Boot.Kernel.PipeC
open Function ByteMemory Pages

variable {s s' : Kmem} {t : Pt} {root addr ch : Addr} {pi pi' : Pipe} {i j k : ℕ}

/-- `for(i = 0; i < n; i++)`: the turns that are left and `i`. `ch` is the address of the variable. -/
def copyLoop (pagetable addr ch : Addr) : ℕ → ℕ → Pipe → Kmem → Option (ℕ × Pipe × Kmem)
  | 0, i, pi, s => some (i, pi, s)
  | turns + 1, i, pi, s =>
      if pi.empty then some (i, pi, s)
      else do
        let m := update s.mem ch (pi.data (index pi.nread))
        let pi := { pi with nread := pi.nread + 1 }
        let r ← copyout pagetable (addr + BitVec.ofNat 64 i) ch 1 ⟨m, s.freelist⟩
        if r.1 = -1 then some (i, pi, r.2)
        else copyLoop pagetable addr ch turns (i + 1) pi r.2

inductive Read where
  | asleep
  | returned (r : ℤ) (pi : Pipe) (s : Kmem)

def piperead (pagetable addr ch : Addr) (n : BitVec 32) (killed : Bool) (pi : Pipe) (s : Kmem) : Option Read :=
  if pi.empty ∧ pi.writeopen then
    if killed then some (.returned (-1) pi s) else some .asleep
  else (copyLoop pagetable addr ch n.toInt.toNat 0 pi s).map fun r => .returned r.1 r.2.1 r.2.2

/-! ## One byte -/

/-- The variable is neither in the table nor in a page of the user. -/
structure Variable (m : Mem) (t : Pt) (ch : Addr) : Prop where
  not_node : ∀ a ∈ t.dom, ch ∉ page (t.addr a)
  apart : ∀ a, Writable m t a → phys m t a ≠ ch

/-- Memory in which the reader has the same pages. -/
structure Alike (m : Mem) (t : Pt) (m' : Mem) : Prop where
  pages : UserPages m' t
  map : lookup m' t = lookup m t

section Byte
variable {m m' : Mem}

theorem Alike.writable (h : Alike m t m') (a : ℕ) : Writable m' t a ↔ Writable m t a := by
  rw [Writable, Readable, h.map]
  rfl

theorem Alike.phys_eq (h : Alike m t m') (a : ℕ) : phys m' t a = phys m t a := by
  rw [phys, h.map]
  rfl

theorem Alike.frame {X : Set Addr} {m'' : Mem} (h : Alike m t m') (hf : Frame X m' m'')
    (hd : ∀ a ∈ t.dom, Disjoint (page (t.addr a)) X) : Alike m t m'' := by
  obtain ⟨hs, hmap⟩ := h.pages.shape.frame hf hd
  refine ⟨⟨hs, ?_, ?_, ?_⟩, hmap.trans h.map⟩ <;> rw [hmap]
  · exact h.pages.inj
  · exact h.pages.ne_zero
  · exact h.pages.not_node

theorem Alike.update (h : Alike m t m') {x : Addr} (hx : ∀ a ∈ t.dom, x ∉ page (t.addr a)) (c : BitVec 8) :
    Alike m t (update m' x c) := by
  refine h.frame (ByteMemory.update_frame m' x c) fun a ha => ?_
  rw [Set.disjoint_left]
  intro y hy hin
  obtain ⟨i, hi, _, rfl⟩ := exists_off hin
  rw [Nat.lt_one_iff.mp hi, off_zero] at hy
  exact hx a ha hy

variable (h : Alike m t s.mem) (hv : Variable m t ch) (hroot : t.addr .root = root)
include h hv hroot

theorem copyout_byte (a : Addr) : ∃ s', s'.freelist = s.freelist ∧
    ((Writable m t a.toNat ∧ copyout root a ch 1 s = some (0, s') ∧ Alike m t s'.mem ∧
        s'.mem = update s.mem (phys m t a.toNat) (s.mem ch)) ∨
      (¬ Writable m t a.toNat ∧ copyout root a ch 1 s = some (-1, s') ∧ s'.mem = s.mem)) := by
  have hone : (1 : BitVec 64).toNat = 1 := rfl
  have hap : ∀ k < (1 : BitVec 64).toNat, Writable s.mem t (a.toNat + k) → ∀ i < (1 : BitVec 64).toNat,
      phys s.mem t (a.toNat + k) ≠ off ch i := by
    intro k _ hw i hi
    rw [hone, Nat.lt_one_iff] at hi
    rw [hi, off_zero, h.phys_eq]
    exact hv.apart _ ((h.writable _).mp hw)
  obtain ⟨j, r, s', hrun, hc⟩ := h.pages.copyoutLoop hroot hap (2 : ℕ) a ch 1 (fun _ hk => absurd hk (Nat.not_lt_zero _))
    (Moved.zero _ _ _) rfl (Nat.zero_le _) (fun _ => rfl) (off_zero ch).symm rfl (by omega)
  have hmoved := hc.moved
  refine ⟨s', hc.freelist, ?_⟩
  rcases hc.ends with ⟨rfl, hj⟩ | ⟨rfl, hj, hnot⟩
  · rw [hone] at hj
    subst hj
    have hw := (h.writable _).mp (hc.writable 0 Nat.one_pos)
    rw [Nat.add_zero] at hw
    have hmem : s'.mem = update s.mem (phys m t a.toNat) (s.mem ch) := by
      funext x
      by_cases hx : x = phys m t a.toNat
      · have hcopied := hmoved.copied 0 Nat.one_pos
        rw [Nat.add_zero, h.phys_eq, off_zero] at hcopied
        rw [hx, update_self, hcopied]
      · rw [update_of_ne hx]
        refine hmoved.keeps fun k hk he => hx ?_
        rw [Nat.lt_one_iff.mp hk, Nat.add_zero, h.phys_eq] at he
        exact he.symm
    refine Or.inl ⟨hw, hrun, ?_, hmem⟩
    rw [hmem]
    refine h.update (fun b hb => ?_) _
    rw [← h.phys_eq]
    exact h.pages.phys_not_node ((h.writable _).mpr hw).1 hb
  · rw [hone, Nat.lt_one_iff] at hj
    subst hj
    rw [Nat.add_zero, h.writable] at hnot
    exact Or.inr ⟨hnot, hrun, funext fun x => hmoved.keeps fun k hk => absurd hk (Nat.not_lt_zero k)⟩

end Byte

/-! ## The loop -/

/-- `nwrite - nread` -/
def Pipe.count (pi : Pipe) : ℕ := (pi.nwrite - pi.nread).toNat

def Pipe.skip (pi : Pipe) (k : ℕ) : Pipe := { pi with nread := pi.nread + BitVec.ofNat 32 k }

/-- The byte that is read after `k` others. -/
def Pipe.byteAt (pi : Pipe) (k : ℕ) : BitVec 8 := pi.data (index (pi.nread + BitVec.ofNat 32 k))

theorem Pipe.skip_empty (hk : k ≤ pi.count) : (pi.skip k).empty = true ↔ k = pi.count := by
  have hlt := (pi.nwrite - pi.nread).isLt
  unfold Pipe.count at *
  rw [Pipe.empty, beq_iff_eq]
  change pi.nread + BitVec.ofNat 32 k = pi.nwrite ↔ _
  constructor
  · intro he
    rw [← he, show pi.nread + BitVec.ofNat 32 k - pi.nread = BitVec.ofNat 32 k by ring, BitVec.toNat_ofNat]
    omega
  · rintro rfl
    rw [BitVec.ofNat_toNat, BitVec.setWidth_eq]
    ring

theorem Pipe.skip_zero (pi : Pipe) : pi.skip 0 = pi := by
  have h0 : pi.nread + BitVec.ofNat 32 0 = pi.nread := BitVec.add_zero pi.nread
  rw [Pipe.skip, h0]

theorem Pipe.skip_succ (pi : Pipe) (k : ℕ) : { pi.skip k with nread := (pi.skip k).nread + 1 } = pi.skip (k + 1) := by
  change Pipe.mk _ (pi.nread + BitVec.ofNat 32 k + 1) _ _ _ = Pipe.mk _ (pi.nread + BitVec.ofNat 32 (k + 1)) _ _ _
  rw [BitVec.ofNat_add, ← BitVec.add_assoc]
  rfl

/-- The reader has the first `j` bytes of the pipe, and nothing else was written. -/
structure Got (s : Kmem) (t : Pt) (addr ch : Addr) (pi : Pipe) (j : ℕ) (s' : Kmem) : Prop where
  writable : ∀ k < j, Writable s.mem t (addr.toNat + k)
  bytes : ∀ k < j, s'.mem (phys s.mem t (addr.toNat + k)) = pi.byteAt k
  frame : ∀ x, x ≠ ch → (∀ k < j, x ≠ phys s.mem t (addr.toNat + k)) → s'.mem x = s.mem x

theorem Got.zero (s : Kmem) (t : Pt) (addr ch : Addr) (pi : Pipe) : Got s t addr ch pi 0 s :=
  ⟨fun _ hk => absurd hk (Nat.not_lt_zero _), fun _ hk => absurd hk (Nat.not_lt_zero _), fun _ _ _ => rfl⟩

theorem Got.addr_toNat (h : Got s t addr ch pi j s') (hj : j < 2 ^ 32) :
    (addr + BitVec.ofNat 64 j).toNat = addr.toNat + j := by
  have hlt := addr.isLt
  rw [BitVec.toNat_add, BitVec.toNat_ofNat]
  cases j with
  | zero => omega
  | succ j =>
    have hw := (h.writable j (Nat.lt_succ_self j)).1.1
    unfold PGSIZE at hw
    omega

section Loop
variable (hu : UserPages s.mem t) (hv : Variable s.mem t ch)
include hu hv

theorem Got.next (h : Got s t addr ch pi j s') (hw : Writable s.mem t (addr.toNat + j)) {s'' : Kmem}
    (hs : s''.mem = update (update s'.mem ch (pi.byteAt j)) (phys s.mem t (addr.toNat + j)) (pi.byteAt j)) :
    Got s t addr ch pi (j + 1) s'' := by
  refine ⟨fun k hk => ?_, fun k hk => ?_, fun x hx hne => ?_⟩
  · rcases Nat.lt_succ_iff_lt_or_eq.mp hk with hk | rfl
    · exact h.writable k hk
    · exact hw
  · rw [hs]
    rcases Nat.lt_succ_iff_lt_or_eq.mp hk with hk | rfl
    · have hne : phys s.mem t (addr.toNat + k) ≠ phys s.mem t (addr.toNat + j) := by
        intro he
        have := hu.phys_inj (h.writable k hk).1 hw.1 he
        omega
      rw [update_of_ne hne, update_of_ne (hv.apart _ (h.writable k hk))]
      exact h.bytes k hk
    · exact update_self _ _ _
  · rw [hs, update_of_ne (hne j (Nat.lt_succ_self j)), update_of_ne hx]
    exact h.frame x hx fun k hk => hne k (Nat.lt_succ_of_lt hk)

/-- The loop stops at the end of the request, of the bytes, or at an address that cannot be written. In the last case the
byte for it is gone. -/
theorem copyLoop_spec (hroot : t.addr .root = root) (turns : ℕ) (h : Got s t addr ch pi i s')
    (ha : Alike s.mem t s'.mem) (hi : i ≤ pi.count) :
    ∃ j pi' s'', copyLoop root addr ch turns i (pi.skip i) s' = some (j, pi', s'') ∧ Got s t addr ch pi j s'' ∧
      ((j = min (i + turns) pi.count ∧ pi' = pi.skip j) ∨
        (j < min (i + turns) pi.count ∧ ¬ Writable s.mem t (addr.toNat + j) ∧ pi' = pi.skip (j + 1))) := by
  induction turns generalizing i s' with
  | zero => exact ⟨i, pi.skip i, s', rfl, h, Or.inl ⟨by omega, rfl⟩⟩
  | succ turns ih =>
    rw [copyLoop]
    by_cases he : (pi.skip i).empty = true
    · have hcount := (Pipe.skip_empty hi).mp he
      rw [if_pos he]
      exact ⟨i, pi.skip i, s', rfl, h, Or.inl ⟨by omega, rfl⟩⟩
    · have hlt : i < pi.count := lt_of_le_of_ne hi fun hc => he ((Pipe.skip_empty hi).mpr hc)
      have hbound : pi.count < 2 ^ 32 := (pi.nwrite - pi.nread).isLt
      have haddr := h.addr_toNat (by omega)
      obtain ⟨s₁, _, hcopy⟩ := copyout_byte (s := ⟨update s'.mem ch (pi.byteAt i), s'.freelist⟩)
        (ha.update hv.not_node (pi.byteAt i)) hv hroot (addr + BitVec.ofNat 64 i)
      rw [haddr] at hcopy
      dsimp only at hcopy
      rw [if_neg he, Pipe.skip_succ]
      change ∃ j pi' s'', (copyout root _ ch 1 ⟨update s'.mem ch (pi.byteAt i), s'.freelist⟩).bind _ = _ ∧ _
      rcases hcopy with ⟨hw, hrun, ha₁, hmem⟩ | ⟨hnot, hrun, hmem⟩
      · rw [hrun, Option.bind_some, if_neg (show ¬ (0 : ℤ) = -1 by decide)]
        rw [update_self] at hmem
        obtain ⟨j, pi', s'', hrun', hgot, hend⟩ := ih (h.next hu hv hw hmem) ha₁ hlt
        exact ⟨j, pi', s'', hrun', hgot, by rwa [show i + (turns + 1) = i + 1 + turns by omega]⟩
      · rw [hrun, Option.bind_some, if_pos rfl]
        refine ⟨i, pi.skip (i + 1), s₁, rfl, ⟨h.writable, fun k hk => ?_, fun x hx hne => ?_⟩,
          Or.inr ⟨by omega, hnot, rfl⟩⟩
        · rw [hmem, update_of_ne (hv.apart _ (h.writable k hk))]
          exact h.bytes k hk
        · rw [hmem, update_of_ne hx]
          exact h.frame x hx hne

end Loop

/-! ## `piperead` -/

/-- As many bytes have left the pipe as the call returns, and these are in the reader's memory. -/
def Delivered (s : Kmem) (t : Pt) (addr ch : Addr) (pi : Pipe) : Read → Prop
  | .asleep => True
  | .returned r pi' s' => (r = -1 ∧ pi' = pi ∧ s' = s) ∨ ∃ j : ℕ, r = j ∧ j ≤ pi.count ∧ pi' = pi.skip j ∧
      Got s t addr ch pi j s'

theorem Pipe.skip_ne (pi : Pipe) (j : ℕ) : pi.skip (j + 1) ≠ pi.skip j := by
  intro he
  have hn : pi.nread + BitVec.ofNat 32 (j + 1) = pi.nread + BitVec.ofNat 32 j := congrArg Pipe.nread he
  have h1 := add_left_cancel hn
  rw [BitVec.ofNat_add] at h1
  exact absurd (add_eq_left.mp h1) (by decide)

/-- **`piperead` removes what it delivers** exactly when it meets no address that cannot be written. -/
theorem piperead_exact_iff (hu : UserPages s.mem t) (hroot : t.addr .root = root) (hv : Variable s.mem t ch) (n : BitVec 32)
    (killed : Bool) (pi : Pipe) (addr : Addr) :
    (∃ res, piperead root addr ch n killed pi s = some res ∧ Delivered s t addr ch pi res) ↔
      ∀ k < min n.toInt.toNat pi.count, Writable s.mem t (addr.toNat + k) := by
  have hskip := pi.skip_zero
  by_cases hwait : pi.empty = true ∧ pi.writeopen = true
  · have hcount : pi.count = 0 := by
      have := hwait.1
      rw [← hskip] at this
      exact ((Pipe.skip_empty (Nat.zero_le _)).mp this).symm
    refine iff_of_true ?_ fun k hk => absurd hk (by omega)
    rw [piperead, if_pos hwait]
    cases killed with
    | true => exact ⟨_, rfl, Or.inl ⟨rfl, rfl, rfl⟩⟩
    | false => exact ⟨_, rfl, trivial⟩
  · obtain ⟨j, pi', s', hrun, hgot, hend⟩ := copyLoop_spec hu hv hroot n.toInt.toNat (Got.zero s t addr ch pi) ⟨hu, rfl⟩
      (Nat.zero_le _)
    rw [hskip] at hrun
    rw [Nat.zero_add] at hend
    rw [piperead, if_neg hwait, hrun]
    rcases hend with ⟨hj, rfl⟩ | ⟨hj, hnot, rfl⟩
    · refine iff_of_true ⟨_, rfl, Or.inr ⟨j, rfl, by omega, rfl, hgot⟩⟩ ?_
      rw [← hj]
      exact hgot.writable
    · refine iff_of_false ?_ fun hall => hnot (hall j hj)
      rintro ⟨res, hres, hdel⟩
      cases hres
      rcases hdel with ⟨hr, _⟩ | ⟨k, hr, _, hpi, _⟩
      · omega
      · obtain rfl : j = k := by omega
        exact pi.skip_ne j hpi

def onePipe : Pipe := ⟨fun _ => 65, 0, 1, true, true⟩

theorem booted_variable {perm : BitVec 64} (hperm : PTE2PA (PA2PTE KERNBASE ||| perm ||| PTE_V) = KERNBASE) :
    ∃ (root : Addr) (s : Kmem) (t : Pt), UserPages s.mem t ∧ t.addr .root = root ∧ Variable s.mem t 0x1000#64 ∧
      lookup s.mem t = mapRange (fun _ => 0) 0 1 KERNBASE perm := by
  obtain ⟨root, s, t, hknown, h, hmap⟩ := booted_userPages hperm
  have hch : (0x1000#64).toNat = 0x1000 := rfl
  refine ⟨root, s, t, h, hknown.root, ⟨fun a ha hin => ?_, fun a hw he => ?_⟩, hmap⟩
  · have hpg := hknown.isPage _ (Pt.addr_mem_own ha)
    have hge := BitVec.le_def.mp hpg.ge_end
    have := (mem_span_toNat hpg.aligned.toNat_le).mp hin
    rw [hch] at this
    rw [show linked.endAddr.toNat = 0x81019000 from rfl] at hge
    omega
  · have hv : a / PGSIZE = 0 := by
      by_contra hne
      refine hw.1.2.1 ?_
      rw [hmap, mapRange_of_not_mem (Or.inr (Nat.pos_of_ne_zero hne))]
      rfl
    have hpa : PTE2PA (lookup s.mem t 0) = KERNBASE := by
      rw [hmap]
      exact hperm
    have hlt : a % PGSIZE < 4096 := Nat.mod_lt _ (by decide)
    have hbase : KERNBASE.toNat = 0x81000000 := rfl
    have hto := congrArg BitVec.toNat he
    rw [phys, hv, hpa, off_toNat _ _ (by omega), hch] at hto
    omega

/-- A byte for a page that can be written. -/
theorem booted_piperead : ∃ (root : Addr) (s : Kmem) (t : Pt), UserPages s.mem t ∧ t.addr .root = root ∧
    Variable s.mem t 0x1000#64 ∧ Writable s.mem t ((0 : Addr).toNat + 0) ∧
    ∃ res, piperead root 0 0x1000#64 1 false onePipe s = some res ∧ Delivered s t 0 0x1000#64 onePipe res := by
  obtain ⟨root, s, t, hu, hroot, hv, hmap⟩ := booted_variable
    (show PTE2PA (PA2PTE KERNBASE ||| (PTE_R ||| PTE_W ||| PTE_U) ||| PTE_V) = KERNBASE by decide)
  have hw : Writable s.mem t ((0 : Addr).toNat + 0) := by
    unfold Writable Readable UserPte
    rw [hmap]
    decide
  refine ⟨root, s, t, hu, hroot, hv, hw, (piperead_exact_iff hu hroot hv 1 false onePipe 0).mpr fun k hk => ?_⟩
  obtain rfl : k = 0 := Nat.lt_one_iff.mp hk
  exact hw

/-- The byte is neither delivered nor left in the pipe. -/
theorem booted_byte_lost : ∃ (root : Addr) (s s' : Kmem) (t : Pt), UserPages s.mem t ∧ t.addr .root = root ∧
    Variable s.mem t 0x1000#64 ∧
    onePipe.count = 1 ∧ piperead root 0 0x1000#64 1 false onePipe s = some (.returned 0 (onePipe.skip 1) s') ∧
    (onePipe.skip 1).empty = true := by
  obtain ⟨root, s, t, hu, hroot, hv, hmap⟩ := booted_variable
    (show PTE2PA (PA2PTE KERNBASE ||| (PTE_R ||| PTE_U) ||| PTE_V) = KERNBASE by decide)
  have hnot : ¬ Writable s.mem t ((0 : Addr).toNat + 0) := by
    rintro ⟨-, hw⟩
    rw [hmap] at hw
    exact hw (by decide)
  obtain ⟨j, pi', s', hrun, hgot, hend⟩ := copyLoop_spec hu hv hroot 1 (Got.zero s t 0 0x1000#64 onePipe) ⟨hu, rfl⟩
    (Nat.zero_le _)
  have hcount : onePipe.count = 1 := rfl
  have hj : j = 0 := by
    by_contra hne
    exact hnot (hgot.writable 0 (by omega))
  subst hj
  rcases hend with ⟨hj, _⟩ | ⟨_, _, rfl⟩
  · rw [hcount] at hj
    omega
  · refine ⟨root, s, s', t, hu, hroot, hv, hcount, ?_, by decide⟩
    rw [Pipe.skip_zero] at hrun
    rw [piperead, if_neg (by decide), show (1 : BitVec 32).toInt.toNat = 1 from rfl, hrun]
    rfl

end Xv6Boot.Kernel.PipeC
