import Xv6Boot.Kernel.UserCopy

/-! # `copyinstr`

A string is copied from user memory a page at a time and, within a page, a byte at a time, until its terminator, the end
of the buffer or an address that the user may not read.
-/

namespace Xv6Boot.Kernel
open ByteMemory Loop StringC Pages

variable {s s₁ s' : Kmem} {m : Mem} {t : Pt} {root dst srcva p : Addr} {max : BitVec 64} {j n k : ℕ}

/-! ## Strings in user memory -/

def userByte (m : Mem) (t : Pt) (srcva : Addr) (k : ℕ) : Byte := m (phys m t (srcva.toNat + k))

/-- The first `k` bytes are mapped for the user and are not terminators. -/
def Unended (m : Mem) (t : Pt) (srcva : Addr) (k : ℕ) : Prop :=
  ∀ i < k, Readable m t (srcva.toNat + i) ∧ userByte m t srcva i ≠ 0

/-- A string of `k` bytes and its terminator, all mapped for the user. -/
def UserString (m : Mem) (t : Pt) (srcva : Addr) (k : ℕ) : Prop :=
  Unended m t srcva k ∧ Readable m t (srcva.toNat + k) ∧ userByte m t srcva k = 0

theorem Unended.succ (h : Unended m t srcva k) (hr : Readable m t (srcva.toNat + k)) (h0 : userByte m t srcva k ≠ 0) :
    Unended m t srcva (k + 1) := by
  intro i hi
  rcases Nat.lt_succ_iff_lt_or_eq.mp hi with hlt | rfl
  · exact h i hlt
  · exact ⟨hr, h0⟩

theorem Unended.no_string (h : Unended m t srcva j) (hr : ¬ Readable m t (srcva.toNat + j)) :
    ¬ UserString m t srcva k := by
  rintro ⟨hu, hk, h0⟩
  rcases Nat.lt_trichotomy k j with hlt | rfl | hgt
  · exact (h k hlt).2 h0
  · exact hr hk
  · exact hr (hu j hgt).1

theorem Unended.no_string_lt (h : Unended m t srcva j) (hk : k < j) : ¬ UserString m t srcva k :=
  fun hs => (h k hk).2 hs.2.2

/-! ## One page -/

/-- The bytes moved so far. -/
abbrev Fetched (s : Kmem) (t : Pt) (dst srcva : Addr) := Moved s.mem (off dst) fun k => phys s.mem t (srcva.toNat + k)

section Fetch
variable (hb : Buffer s t dst srcva max.toNat)
include hb

theorem Buffer.next_byte (hm : Fetched s t dst srcva j m) (hj : j < max.toNat) (hr : Readable s.mem t (srcva.toNat + j)) :
    m (phys s.mem t (srcva.toNat + j)) = userByte s.mem t srcva j ∧
      Fetched s t dst srcva (j + 1) (Function.update m (off dst j) (userByte s.mem t srcva j)) := by
  have hmax := max.isLt
  have hdf : ∀ k < j, off dst k ≠ phys s.mem t (srcva.toNat + j) := fun k hk => hb.apart k (by omega) j hj hr
  have hbyte : m (phys s.mem t (srcva.toNat + j)) = userByte s.mem t srcva j := hm.keeps hdf
  refine ⟨hbyte, ?_⟩
  rw [← hbyte]
  refine hm.byte (fun k hk he => ?_) hdf
  have := off_injective dst (by omega) (by omega) he
  omega

/-- The loop over a page, by induction on the bytes left in it. -/
theorem Buffer.copyinstrPage (hm : Fetched s t dst srcva j m) (hu : Unended s.mem t srcva j) {left : BitVec 64}
    (hleft : left.toNat = max.toNat - j) (hn : j + n ≤ max.toNat)
    (hr : ∀ i < n, Readable s.mem t (srcva.toNat + (j + i)))
    (hp : ∀ i < n, phys s.mem t (srcva.toNat + (j + i)) = off p i) :
    (∃ k < j + n, ∃ d l m', copyinstrPage n p (off dst j) left m = (true, d, l, m') ∧ UserString s.mem t srcva k ∧
        Fetched s t dst srcva (k + 1) m') ∨
      ∃ l m', copyinstrPage n p (off dst j) left m = (false, off dst (j + n), l, m') ∧ l.toNat = max.toNat - (j + n) ∧
        Unended s.mem t srcva (j + n) ∧ Fetched s t dst srcva (j + n) m' := by
  induction n generalizing j p left m with
  | zero => exact Or.inr ⟨left, m, rfl, hleft, hu, hm⟩
  | succ n ih =>
    have hr0 := hr 0 (Nat.succ_pos n)
    have hp0 := hp 0 (Nat.succ_pos n)
    rw [Nat.add_zero] at hr0 hp0
    rw [off_zero] at hp0
    obtain ⟨hbyte, hnext⟩ := hb.next_byte hm (by omega) hr0
    rw [hp0] at hbyte
    rw [Kernel.copyinstrPage, hbyte]
    by_cases hz : userByte s.mem t srcva j = 0
    · rw [if_pos hz]
      refine Or.inl ⟨j, by omega, _, _, _, rfl, ⟨hu, hr0, hz⟩, ?_⟩
      rw [hz] at hnext
      exact hnext
    · have hdst : off dst j + 1 = off dst (j + 1) := (add_eq_off _ _).trans (off_off dst j 1)
      have hleft' : (left - 1).toNat = max.toNat - (j + 1) := by
        rw [BitVec.toNat_sub_of_le (BitVec.le_def.mpr (by rw [hleft, show (1 : BitVec 64).toNat = 1 from rfl]; omega)),
          hleft]
        rfl
      have hshift : ∀ i, j + (i + 1) = j + 1 + i := fun i => by omega
      rw [if_neg hz, hdst, hshift n]
      refine ih hnext (hu.succ hr0 hz) hleft' (by omega) (fun i hi => ?_) fun i hi => ?_
      · rw [← hshift]
        exact hr (i + 1) (by omega)
      · rw [← hshift, hp (i + 1) (by omega), off_succ]

end Fetch

/-! ## The whole string -/

/-- How `copyinstr` ends: with the string and its terminator, or with at most `max` bytes of something that is not one. -/
def StrEnded (s : Kmem) (t : Pt) (dst srcva : Addr) (max : ℕ) (r : ℤ) (s' : Kmem) : Prop :=
  (r = 0 ∧ ∃ k < max, UserString s.mem t srcva k ∧ Fetched s t dst srcva (k + 1) s'.mem) ∨
    (r = -1 ∧ (∀ k < max, ¬ UserString s.mem t srcva k) ∧ ∃ j ≤ max, Fetched s t dst srcva j s'.mem)

section Str
variable (h : Shape s.mem t) (h0 : ∀ v < 2 ^ 26, UserPte (lookup s.mem t v) → PTE2PA (lookup s.mem t v) ≠ 0)
  (hroot : t.addr .root = root) (hb : Buffer s t dst srcva max.toNat)
include h h0 hroot hb

/-- The loop over the pages, by induction on its turns. -/
theorem copyinstrLoop_ends (fuel : ℕ) (srcva₁ : Addr) (max₁ : BitVec 64) (hm : Fetched s t dst srcva j s₁.mem)
    (hu : Unended s.mem t srcva j) (hj : j ≤ max.toNat) (hsrc : j < max.toNat → srcva₁.toNat = srcva.toNat + j)
    (hmax : max₁.toNat = max.toNat - j) (hfuel : max.toNat < j + fuel) :
    ∃ r s', copyinstrLoop root fuel (off dst j) srcva₁ max₁ s₁ = some (r, s') ∧ s'.freelist = s₁.freelist ∧
      StrEnded s t dst srcva max.toNat r s' := by
  induction fuel generalizing j s₁ srcva₁ max₁ with
  | zero => omega
  | succ fuel ih =>
    rw [copyinstrLoop]
    by_cases hpos : 0 < max₁
    · have hpos' : 0 < max₁.toNat := BitVec.lt_def.mp hpos
      have hjlt : j < max.toNat := by omega
      have ha := hsrc hjlt
      obtain ⟨hshape, hmap⟩ := hb.shape_moved h hj hm
      rw [if_pos hpos]
      simp only
      by_cases hrd : Readable s.mem t (srcva.toNat + j)
      · have hrd' : Readable s₁.mem t srcva₁.toNat := by
          unfold Readable
          rw [hmap, ha]
          exact hrd
        have hwalk := hshape.walkaddr_readable hrd'
        have hchunk := chunk_toNat srcva₁ max₁
        have hphys := phys_eq s.mem t srcva₁
        have hpage := next_page hrd'.1
        rw [hroot, hmap, ha] at hwalk
        rw [ha] at hchunk hphys hpage
        rw [hwalk]
        simp only [Option.bind_eq_bind, Option.bind_some]
        rw [if_neg (h0 _ hrd.1 hrd.2), hphys]
        generalize (if BitVec.ofNat 64 PGSIZE - (srcva₁ - PGROUNDDOWN srcva₁) > max₁ then max₁
          else BitVec.ofNat 64 PGSIZE - (srcva₁ - PGROUNDDOWN srcva₁)) = n at hchunk ⊢
        have hturn := hb.copyinstrPage (n := n.toNat) hm hu hmax (by omega)
          (fun i hi => by
            refine hrd.congr ?_
            unfold PGSIZE
            omega)
          fun i hi => by
            rw [← Nat.add_assoc]
            refine phys_add _ _ ?_
            unfold PGSIZE
            omega
        rcases hturn with ⟨k, hk, d, l, m', hrun, hstr, hm'⟩ | ⟨l, m', hrun, hl, hu', hm'⟩
        · rw [hrun]
          exact ⟨0, _, rfl, rfl, Or.inl ⟨rfl, k, by omega, hstr, hm'⟩⟩
        · rw [hrun]
          have hm'' : Fetched s t dst srcva (j + n.toNat) (Kmem.mem ⟨m', s₁.freelist⟩) := hm'
          refine ih _ _ hm'' hu' (by omega) ?_ hl (by omega)
          intro _
          rw [hpage]
          omega
      · have hrd' : ¬ Readable s₁.mem t srcva₁.toNat := by
          unfold Readable
          rw [hmap, ha]
          exact hrd
        have hwalk := hshape.walkaddr_not hrd'
        rw [hroot] at hwalk
        rw [hwalk]
        simp only [Option.bind_eq_bind, Option.bind_some]
        exact ⟨-1, s₁, if_pos trivial, rfl, Or.inr ⟨rfl, fun k _ => hu.no_string hrd, j, hj, hm⟩⟩
    · have hzero : ¬ 0 < max₁.toNat := fun h0 => hpos (BitVec.lt_def.mpr h0)
      have hjeq : j = max.toNat := by omega
      rw [if_neg hpos]
      exact ⟨-1, s₁, rfl, rfl, Or.inr ⟨rfl, fun k hk => hu.no_string_lt (hjeq ▸ hk), j, hj, hm⟩⟩

/-- **`copyinstr` copies a string or fails.** -/
theorem copyinstr_string :
    ∃ r s', copyinstr root dst srcva max s = some (r, s') ∧ s'.freelist = s.freelist ∧
      (r = 0 ↔ ∃ k < max.toNat, UserString s.mem t srcva k) ∧ StrEnded s t dst srcva max.toNat r s' := by
  have hnone : Unended s.mem t srcva 0 := fun _ hi => absurd hi (Nat.not_lt_zero _)
  obtain ⟨r, s', hrun, hfl, hend⟩ := copyinstrLoop_ends h h0 hroot hb (max.toNat + 1) srcva max (Moved.zero _ _ _) hnone
    (Nat.zero_le _) (fun _ => rfl) rfl (by omega)
  rw [off_zero] at hrun
  refine ⟨r, s', hrun, hfl, ?_, hend⟩
  rcases hend with ⟨rfl, k, hk, hs, _⟩ | ⟨rfl, hno, _⟩
  · exact ⟨fun _ => ⟨k, hk, hs⟩, fun _ => rfl⟩
  · exact ⟨fun hr => absurd hr (by decide), fun ⟨k, hk, hs⟩ => absurd hs (hno k hk)⟩

end Str

/-- At most sixteen bytes of kernel text, as a string. -/
theorem booted_copyinstr : ∃ root s t, Shape s.mem t ∧ t.addr .root = root ∧
    Buffer s t 0x1000#64 0 (16 : BitVec 64).toNat ∧ ∃ r s', copyinstr root 0x1000#64 0 16 s = some (r, s') := by
  obtain ⟨root, s, t, hroot, h, hb, _⟩ := booted_buffer
  obtain ⟨r, s', hrun, _⟩ := copyinstr_string h.shape h.ne_zero hroot hb
  exact ⟨root, s, t, h.shape, hroot, hb, r, s', hrun⟩

/-- An empty string in a page that is mapped to physical page 0. -/
theorem page_zero_refused : ∃ s t, Known linked 0x88fff000#64 s t ∧ UserString s.mem t 0 0 ∧
    copyinstr 0x88fff000#64 0x1000#64 0 1 s = some (-1, s) := by
  obtain ⟨s, t, _, h, hmap, _, hf⟩ := first_pages threeFree_pool threePages_isPage le_rfl 0 (PTE_R ||| PTE_U) Nat.one_pos
    (by decide)
  have h0 : lookup s.mem t 0 = PA2PTE 0 ||| (PTE_R ||| PTE_U) ||| PTE_V := by
    rw [hmap]
    rfl
  have hread : Readable s.mem t 0 := by
    unfold Readable UserPte
    rw [Nat.zero_div, h0]
    decide
  have hphys : phys s.mem t 0 = 0 := by
    rw [phys, Nat.zero_div, h0]
    decide
  have hbyte : s.mem 0 = 0 := by
    have hd : Disjoint (page 0) (region threePages.toFinset) := by
      refine page_disjoint_region (fun q hq => (threePages_isPage q (List.mem_toFinset.mp hq)).aligned) rfl ?_
      decide
    have hkeep := hf.byte hd (k := 0) (by decide) (by decide)
    rw [off_zero] at hkeep
    rw [hkeep]
    decide
  refine ⟨s, t, h, ⟨fun _ hi => absurd hi (Nat.not_lt_zero _), hread, ?_⟩, ?_⟩
  · change s.mem (phys s.mem t 0) = 0
    rw [hphys, hbyte]
  · have hwalk : walkaddr 0x88fff000#64 (PGROUNDDOWN 0) s = some 0 := by
      have hw := h.kpt.shape.walkaddr_readable (a := 0) hread
      rw [h.root] at hw
      rw [hw, show (0 : Addr).toNat / PGSIZE = 0 from rfl, h0]
      decide
    rw [copyinstr, copyinstrLoop, if_pos (by decide)]
    simp only
    rw [hwalk]
    rfl

end Xv6Boot.Kernel
