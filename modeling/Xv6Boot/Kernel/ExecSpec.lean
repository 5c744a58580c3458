import Xv6Boot.Kernel.Exec
import Xv6Boot.Kernel.FsWalk
import Xv6Boot.Kernel.ProcImage

/-! # `exec` is all or nothing

Until it commits, `exec` works on pages that were free when it was called. At every point at which it gives up, those
pages are the ones of the new image or free, so that freeing the image restores the free pages; when it succeeds, the
pages of the old image become free.
-/

namespace Xv6Boot.Kernel.Exec
open ByteMemory Pages Program
open Xv6Boot.Kernel.Fs (Superblock Ip readi ilock iunlockput namei Layout Good Rows Tree Walked nodes)

variable {α : Type} {sym : Symbols} {sb : Superblock} {F : Set ℕ} {E : String → Prop} {s s' : Machine} {k₀ k : Kmem}
  {root trapframe : Addr} {t : Pt} {sz newsz xperm : BitVec 64} {L : Finset Addr} {U : Set Addr} {ip : Ip} {v n : ℕ}
  {m : Mem} {X : Set Addr} {va P : Addr} {str : List Byte}

/-! ## The two parts of the machine -/

theorem wp_onFs {m : Fs.M α} {Q : α → Machine → Prop} (h : wp m (fun a fs => Q a { s with fs := fs }) E s.fs) :
    wp (onFs m) Q E s := by
  unfold wp onFs at *
  cases hm : m s.fs with
  | ok r =>
    rw [hm] at h
    exact h
  | error e =>
    rw [hm] at h
    exact h

theorem wp_onMem {f : Kmem → Option (α × Kmem)} {Q : α → Machine → Prop} {a : α} {k : Kmem} (hf : f s.mem = some (a, k))
    (hq : Q a { s with mem := k }) : wp (onMem f) Q E s := by
  rw [wp, onMem, hf]
  exact hq

theorem wp_setMem {f : Mem → Mem} {Q : Unit → Machine → Prop} (hq : Q () { s with mem := ⟨f s.mem.mem, s.mem.freelist⟩ }) :
    wp (setMem f) Q E s := hq

/-! ## The new image -/

/-- The pages of the new image and the free ones are those of `L`, which were free in `k₀`; memory outside of them and
of the kernel's own bytes `U` is as it was. -/
structure Built (sym : Symbols) (trapframe : Addr) (k₀ : Kmem) (L : Finset Addr) (U : Set Addr) (root : Addr) (k : Kmem)
    (t : Pt) (sz : BitVec 64) : Prop where
  image : Image sym trapframe root k t (pagesOf sz)
  pages : t.pages k (pagesOf sz) = L
  frame : Frame (region L ∪ U) k₀.mem k.mem

namespace Built
variable (h : Built sym trapframe k₀ L U root k t sz)
include h

theorem own_subset : t.own ⊆ L := h.pages ▸ Pt.own_subset_pages k t _

theorem leaf_mem (hv : v < pagesOf sz) : leafPage k t v ∈ L := h.pages ▸ Pt.mem_pages.mpr (Or.inr ⟨v, hv, rfl⟩)

theorem free (hsym : sym.Fits) :
    ∃ k' l, procFreepagetable sym root sz k = some k' ∧ Pool k'.mem k'.freelist l ∧ l.toFinset = L ∧
      Frame (region L ∪ U) k₀.mem k'.mem := by
  obtain ⟨k', l, hrun, hpool, hl, hf⟩ := h.image.free hsym
  rw [h.pages] at hl hf
  exact ⟨k', l, hrun, hpool, hl, h.frame.trans (hf.mono Set.subset_union_left)⟩

theorem uvmalloc (hsym : sym.Fits) (hx : xperm.toNat < 1024) (newsz : BitVec 64) :
    ∃ r k' t', Kernel.uvmalloc sym root sz newsz xperm k = some (r, k') ∧
      Built sym trapframe k₀ L U root k' t' (if r = 0 then sz else r) ∧
      (∀ v < pagesOf sz, lookup k'.mem t' v = lookup k.mem t v) ∧
      (∀ v, pagesOf sz ≤ v → v < pagesOf (if r = 0 then sz else r) →
        PTE_FLAGS (lookup k'.mem t' v) = PTE_R ||| PTE_U ||| xperm ||| PTE_V) ∧
      (r ≠ 0 → r = if newsz < sz then sz else newsz) := by
  obtain ⟨r, k', t', hrun, hf, himage, hpages, hlow, hflags, hr⟩ := h.image.uvmalloc hsym hx newsz
  refine ⟨r, k', t', hrun, ⟨himage, hpages.trans h.pages, h.frame.trans (hf.mono ?_)⟩, hlow, hflags, hr⟩
  exact (region_mono h.own_subset).trans Set.subset_union_left

theorem own_disjoint {q : Addr} (hq : Aligned q) (hn : q ∉ t.own) : Disjoint (region t.own) (page q) :=
  (page_disjoint_region (fun _ hp => h.image.kpt.own_aligned hp) hq hn).symm

theorem write (hv : v < pagesOf sz) (hf : Frame (page (leafPage k t v)) k.mem m) :
    Built sym trapframe k₀ L U root ⟨m, k.freelist⟩ t sz ∧ ∀ w, lookup m t w = lookup k.mem t w := by
  obtain ⟨himage, hmap⟩ := h.image.write hf (h.own_disjoint (h.image.page v hv).aligned (h.image.not_own v hv))
  have hpages : t.pages ⟨m, k.freelist⟩ (pagesOf sz) = t.pages k (pagesOf sz) := Pt.pages_congr rfl fun w _ => hmap w
  refine ⟨⟨himage, hpages.trans h.pages, h.frame.trans (hf.mono ?_)⟩, hmap⟩
  exact (page_subset_region (h.leaf_mem hv)).trans Set.subset_union_left

theorem kernel (hX : X ⊆ U) (hd : Disjoint (region L) U) (hf : Frame X k.mem m) :
    Built sym trapframe k₀ L U root ⟨m, k.freelist⟩ t sz ∧ ∀ w, lookup m t w = lookup k.mem t w := by
  obtain ⟨himage, hmap⟩ := h.image.write hf (hd.mono (region_mono h.own_subset) hX)
  have hpages : t.pages ⟨m, k.freelist⟩ (pagesOf sz) = t.pages k (pagesOf sz) := Pt.pages_congr rfl fun w _ => hmap w
  exact ⟨⟨himage, hpages.trans h.pages, h.frame.trans (hf.mono (hX.trans Set.subset_union_right))⟩, hmap⟩

theorem size_le : sz.toNat ≤ 0x89000000 := h.image.toUspace.size_le

end Built

def AllUser (k : Kmem) (t : Pt) (n : ℕ) : Prop := ∀ v < n, lookup k.mem t v &&& PTE_U ≠ 0

/-! ## Reading the file -/

/-- The inode that is read is locked. -/
structure Open (sb : Superblock) (F : Set ℕ) (fs : Fs.State) (ip : Ip) : Prop where
  good : Good sb F fs
  ref : 0 < (fs.inode ip).ref
  valid : (fs.inode ip).valid = true

theorem Open.readi (hl : Layout sb) {fs : Fs.State} (h : Open sb F fs ip) (off n : BitVec 32) :
    wp (readi sb ip (fun _ => true) off n) (fun r fs' => fs' = fs ∧ r.2.length ≤ n.toNat) E fs := by
  have hview := h.good.view h.ref h.valid
  refine (Fs.readi_wp hl hview h.good.owned (h.good.filled _ hview.alloc) (fun _ => true) off n).mono
    fun r fs' ⟨hs, hr⟩ => ⟨hs, ?_⟩
  rcases hr with ⟨rfl, _⟩ | ⟨_, _, l, hl', hr⟩
  · exact Nat.zero_le _
  · rcases hr with rfl | ⟨_, i, _, hi⟩
    · have : ((Fs.dinode sb fs.cache (fs.inode ip).inum).slice fs.cache off.toNat l).length = l := by
        simp [Fs.Dinode.slice]
      simp only [this]
      omega
    · cases hi

theorem onFs_readi (hl : Layout sb) (h : Open sb F s.fs ip) (off n : BitVec 32) :
    wp (onFs (readi sb ip (fun _ => true) off n)) (fun r s' => s' = s ∧ r.2.length ≤ n.toNat) E s :=
  wp_onFs ((h.readi hl off n).mono fun _ _ ⟨hfs, hlen⟩ => ⟨by rw [hfs], hlen⟩)

theorem readInto_wp (hl : Layout sb) (h : Open sb F s.fs ip) (dst : Addr) (off n : BitVec 32) :
    wp (readInto sb ip dst off n) (fun _ s' => ∃ m, s' = { s with mem := ⟨m, s.mem.freelist⟩ } ∧
      Frame (span dst n.toNat) s.mem.mem m) E s := by
  refine (onFs_readi hl h off n).bind ?_
  rintro r _ ⟨rfl, hlen⟩
  exact ⟨_, rfl, (put_frame _ _ _ _).mono (span_mono dst hlen)⟩

theorem flags2perm_cases (flags : BitVec 32) :
    flags2perm flags = 0 ∨ flags2perm flags = PTE_X ∨ flags2perm flags = PTE_W ∨ flags2perm flags = PTE_X ||| PTE_W := by
  unfold flags2perm
  by_cases h₁ : flags &&& 1 ≠ 0
  · by_cases h₂ : flags &&& 2 ≠ 0
    · exact Or.inr (Or.inr (Or.inr (by rw [if_pos h₁, if_pos h₂])))
    · exact Or.inr (Or.inl (by rw [if_pos h₁, if_neg h₂]))
  · by_cases h₂ : flags &&& 2 ≠ 0
    · exact Or.inr (Or.inr (Or.inl (by rw [if_neg h₁, if_pos h₂]; rfl)))
    · exact Or.inl (by rw [if_neg h₁, if_neg h₂])

theorem flags2perm_lt (flags : BitVec 32) : (flags2perm flags).toNat < 1024 := by
  rcases flags2perm_cases flags with h | h | h | h <;> rw [h] <;> decide

theorem flags2perm_user (flags : BitVec 32) : (PTE_R ||| PTE_U ||| flags2perm flags ||| PTE_V) &&& PTE_U ≠ 0 := by
  rcases flags2perm_cases flags with h | h | h | h <;> rw [h] <;> decide

section Loading
variable (hl : Layout sb) (hsym : sym.Fits)
include hl hsym

theorem loadsegLoop_wp {offset fsz : BitVec 32} (hva : va.toNat % PGSIZE = 0) (hend : va.toNat + fsz.toNat ≤ sz.toNat)
    (turns : ℕ) {i : BitVec 32} {j : ℕ} (hi : i.toNat = 4096 * j) (hj : 4096 * j < fsz.toNat + 4096)
    (hturns : fsz.toNat + 4096 ≤ 4096 * (j + turns)) (ho : Open sb F s.fs ip)
    (hb : Built sym trapframe k₀ L U root s.mem t sz) (hu : AllUser s.mem t (pagesOf sz)) :
    wp (loadsegLoop sb root va ip offset fsz turns i) (fun _ s' => ∃ m, s' = { s with mem := ⟨m, s.mem.freelist⟩ } ∧
      Built sym trapframe k₀ L U root ⟨m, s.mem.freelist⟩ t sz ∧ ∀ w, lookup m t w = lookup s.mem.mem t w) E s := by
  have hle := hb.size_le
  unfold PGSIZE at hva
  induction turns generalizing i j s with
  | zero => omega
  | succ turns ih =>
    rw [loadsegLoop]
    by_cases hlt : i < fsz
    · rw [if_pos hlt]
      have hlt' := BitVec.lt_def.mp hlt
      have haddr : (va + i.setWidth 64).toNat = 4096 * (va.toNat / 4096 + j) := by
        rw [BitVec.toNat_add, BitVec.toNat_setWidth, Nat.mod_eq_of_lt (a := i.toNat) (by omega)]
        omega
      have hv : va.toNat / 4096 + j < pagesOf sz := by
        unfold pagesOf
        omega
      have hpa := hb.image.walkaddr hv (hu _ hv) haddr
      have hne := (hb.image.page _ hv).ne_zero hsym
      refine (wp_onMem (a := leafPage s.mem t (va.toNat / 4096 + j)) (k := s.mem) (Q := fun pa s' =>
        pa = leafPage s.mem t (va.toNat / 4096 + j) ∧ s' = s) (by rw [hpa]; rfl) ⟨rfl, rfl⟩).bind ?_
      intro pa s' ⟨hpa', hs⟩
      rw [hpa', hs, if_neg hne]
      -- at most a page is read into the page
      have hn : (if fsz - i < BitVec.ofNat 32 PGSIZE then fsz - i else BitVec.ofNat 32 PGSIZE).toNat ≤ pageBytes := by
        split
        · next hs => exact (BitVec.lt_def.mp hs).le
        · exact le_rfl
      generalize (if fsz - i < BitVec.ofNat 32 PGSIZE then fsz - i else BitVec.ofNat 32 PGSIZE) = n at hn ⊢
      refine (readInto_wp hl ho _ _ _).bind ?_
      rintro r _ ⟨m, rfl, hf⟩
      obtain ⟨hb', hmap⟩ := hb.write hv (hf.mono (span_mono _ hn))
      split
      · exact ⟨m, rfl, hb', hmap⟩
      · have hi' : (i + BitVec.ofNat 32 PGSIZE).toNat = 4096 * (j + 1) := by
          rw [BitVec.toNat_add, BitVec.toNat_ofNat]
          unfold PGSIZE
          omega
        refine (ih (s := { s with mem := ⟨m, s.mem.freelist⟩ }) hi' (by omega) (by omega) ho hb' fun v hv => ?_).mono ?_
        · rw [hmap v]
          exact hu v hv
        · rintro _ _ ⟨m', rfl, hb'', hmap'⟩
          exact ⟨m', rfl, hb'', fun w => (hmap' w).trans (hmap w)⟩
    · rw [if_neg hlt]
      exact ⟨s.mem.mem, rfl, hb, fun _ => rfl⟩

theorem loadseg_wp {offset fsz : BitVec 32} (hva : va.toNat % PGSIZE = 0) (hend : va.toNat + fsz.toNat ≤ sz.toNat)
    (ho : Open sb F s.fs ip) (hb : Built sym trapframe k₀ L U root s.mem t sz) (hu : AllUser s.mem t (pagesOf sz)) :
    wp (loadseg sb root va ip offset fsz) (fun _ s' => ∃ m, s' = { s with mem := ⟨m, s.mem.freelist⟩ } ∧
      Built sym trapframe k₀ L U root ⟨m, s.mem.freelist⟩ t sz ∧ ∀ w, lookup m t w = lookup s.mem.mem t w) E s := by
  refine loadsegLoop_wp hl hsym hva hend _ (j := 0) rfl (by omega) ?_ ho hb hu
  unfold PGSIZE
  omega

omit hl in
theorem segment_wp {ph : List Byte} (hsize : ¬ memsz ph < filesz ph) (hwrap : ¬ vaddr ph + memsz ph < vaddr ph)
    (hb : Built sym trapframe k₀ L U root s.mem t sz) (hu : AllUser s.mem t (pagesOf sz)) :
    wp (onMem (uvmalloc sym root sz (vaddr ph + memsz ph) (flags2perm (phFlags ph)))) (fun sz1 s' =>
      ∃ k t', s' = { s with mem := k } ∧ Built sym trapframe k₀ L U root k t' (if sz1 = 0 then sz else sz1) ∧
        AllUser k t' (pagesOf (if sz1 = 0 then sz else sz1)) ∧
        (sz1 ≠ 0 → (vaddr ph).toNat + (filesz ph).toNat ≤ sz1.toNat)) E s := by
  obtain ⟨r, k, t', hrun, hb', hlow, hflags, hr⟩ := hb.uvmalloc hsym (flags2perm_lt (phFlags ph)) (vaddr ph + memsz ph)
  refine wp_onMem hrun ⟨k, t', rfl, hb', fun v hv => ?_, fun h0 => ?_⟩
  · by_cases hold : v < pagesOf sz
    · rw [hlow v hold]
      exact hu v hold
    · rw [and_of_flags (hflags v (by omega) hv) (by decide)]
      exact flags2perm_user _
  · have hr' := hr h0
    have h₁ := BitVec.le_def.mp (BitVec.not_lt.mp hsize)
    have h₂ := BitVec.le_def.mp (BitVec.not_lt.mp hwrap)
    have hsum : (vaddr ph + memsz ph).toNat = (vaddr ph).toNat + (memsz ph).toNat := by
      rw [BitVec.toNat_add] at h₂ ⊢
      have := (vaddr ph).isLt
      have := (memsz ph).isLt
      omega
    split at hr'
    · next hlt =>
      have := BitVec.lt_def.mp hlt
      rw [hr']
      omega
    · rw [hr']
      omega

/-- The loop over the program headers leaves an image that fits `sz`, whether it gives up or not. -/
theorem loadSegments_wp (count : ℕ) {off : BitVec 32} (ho : Open sb F s.fs ip)
    (hb : Built sym trapframe k₀ L U root s.mem t sz) (hu : AllUser s.mem t (pagesOf sz)) :
    wp (loadSegments sym sb root ip count off sz) (fun r s' => ∃ k t', s' = { s with mem := k } ∧
      Built sym trapframe k₀ L U root k t' r.2 ∧ AllUser k t' (pagesOf r.2)) E s := by
  induction count generalizing off sz s t with
  | zero => exact ⟨s.mem, t, rfl, hb, hu⟩
  | succ count ih =>
    have hstay : ∀ {b : Bool}, wp (pure (b, sz) : X (Bool × BitVec 64)) (fun r s' => ∃ k t', s' = { s with mem := k } ∧
        Built sym trapframe k₀ L U root k t' r.2 ∧ AllUser k t' (pagesOf r.2)) E s := ⟨s.mem, t, rfl, hb, hu⟩
    rw [loadSegments]
    refine (onFs_readi hl ho off sizeofProghdr).bind ?_
    intro r s' ⟨hs, _⟩
    rw [hs]
    obtain ⟨r, ph⟩ := r
    dsimp only
    split
    · exact hstay
    split
    · exact ih ho hb hu
    split
    · exact hstay
    next hsize =>
    split
    · exact hstay
    next hwrap =>
    split
    · exact hstay
    next hal =>
    refine (segment_wp hsym hsize hwrap hb hu).bind ?_
    rintro sz1 _ ⟨k, t', rfl, hb', hu', hend⟩
    split
    · next h0 =>
      rw [if_pos h0] at hb' hu'
      exact ⟨k, t', rfl, hb', hu'⟩
    next h0 =>
    rw [if_neg h0] at hb' hu'
    have hend' : (vaddr ph).toNat + (BitVec.setWidth 32 (filesz ph)).toNat ≤ sz1.toNat := by
      have := hend h0
      have : (BitVec.setWidth 32 (filesz ph)).toNat ≤ (filesz ph).toNat := by
        rw [BitVec.toNat_setWidth]
        exact Nat.mod_le _ _
      omega
    refine (loadseg_wp (s := { s with mem := k }) hl hsym (not_not.mp hal) hend' ho hb' hu').bind ?_
    rintro r' _ ⟨m, rfl, hb'', hmap⟩
    have hu'' : AllUser ⟨m, k.freelist⟩ t' (pagesOf sz1) := fun v hv => by
      rw [show lookup m t' v = _ from hmap v]
      exact hu' v hv
    split
    · exact ⟨_, t', rfl, hb'', hu''⟩
    · refine (ih (s := { s with mem := ⟨m, k.freelist⟩ }) ho hb'' hu'').mono ?_
      rintro _ _ ⟨k', t'', rfl, h⟩
      exact ⟨k', t'', rfl, h⟩

end Loading

/-! ## The stack -/

/-- `n` bytes pushed onto an aligned stack take this many. -/
def up16 (n : ℕ) : ℕ := (n + 15) / 16 * 16

def room (strs : List (List Byte)) : ℕ := (strs.map fun str => up16 (str.length + 1)).sum

/-- Where the `i`th string is, when pushing starts at `sp`. -/
def place (sp : ℕ) (strs : List (List Byte)) (i : ℕ) : ℕ := sp - room (strs.take (i + 1))

/-- A string at an address, shorter than a page. -/
structure CString (m : Mem) (a : Addr) (str : List Byte) : Prop where
  bytes : ∀ i < str.length, m (off a i) = str.getD i 0 ∧ str.getD i 0 ≠ 0
  nul : m (off a str.length) = 0
  short : str.length < PGSIZE

theorem CString.strlen_eq {a : Addr} (h : CString m a str) : strlen m a = str.length := by
  have hshort := h.short
  rw [strlen, List.findIdx_eq (by simpa using hshort)]
  refine ⟨by simpa using h.nul, fun j hj => ?_⟩
  have := h.bytes j hj
  simp [this.1]
  simpa using this.2

theorem CString.frame {m' : Mem} {a : Addr} (h : CString m a str) (hf : Frame X m m') (hd : Disjoint (page a) X) :
    CString m' a str := by
  have hbyte : ∀ i ≤ str.length, m' (off a i) = m (off a i) := by
    intro i hi
    have := h.short
    unfold PGSIZE at this
    exact hf.byte hd (show i < pageBytes by unfold pageBytes; omega) (by omega)
  refine ⟨fun i hi => ?_, ?_, h.short⟩
  · rw [hbyte i hi.le]
    exact h.bytes i hi
  · rw [hbyte _ le_rfl]
    exact h.nul

/-- An argument string on a page of its own. -/
structure Arg (k₀ : Kmem) (L : Finset Addr) (U : Set Addr) (a : Addr) (str : List Byte) : Prop where
  string : CString k₀.mem a str
  apart : Disjoint (page a) (region L ∪ U)

theorem align_sub {sp n : BitVec 64} (hsp : sp.toNat % 16 = 0) (hn : n.toNat ≤ sp.toNat) :
    (sp - n - (sp - n) % 16).toNat = sp.toNat - up16 n.toNat := by
  have h₁ : (sp - n).toNat = sp.toNat - n.toNat := BitVec.toNat_sub_of_le (BitVec.le_def.mpr hn)
  have h₂ : ((sp - n) % 16).toNat = (sp.toNat - n.toNat) % 16 := by
    rw [BitVec.toNat_umod, h₁]
    rfl
  rw [BitVec.toNat_sub_of_le (BitVec.le_def.mpr (by omega)), h₁, h₂]
  unfold up16
  omega

theorem up16_le {n b : ℕ} (h : n ≤ b) (hb : b % 16 = 0) : up16 n ≤ b := by
  unfold up16
  omega

theorem le_up16 (n : ℕ) : n ≤ up16 n := by
  unfold up16
  omega

theorem up16_mod (n : ℕ) : up16 n % 16 = 0 := by
  unfold up16
  omega

/-- The stack is page `v` of the image, and the user may write there. -/
structure Stack (k : Kmem) (t : Pt) (n v : ℕ) : Prop where
  lt : v < n
  pos : 0 < v
  user : lookup k.mem t v &&& PTE_U ≠ 0
  writable : lookup k.mem t v &&& PTE_W ≠ 0

theorem Stack.congr {fl : Addr} (h : Stack k t n v) (hmap : ∀ w, lookup m t w = lookup k.mem t w) :
    Stack ⟨m, fl⟩ t n v := by
  refine ⟨h.lt, h.pos, ?_, ?_⟩
  · change lookup m t v &&& PTE_U ≠ 0
    rw [hmap v]
    exact h.user
  · change lookup m t v &&& PTE_W ≠ 0
    rw [hmap v]
    exact h.writable

/-- The strings from number `c` on are on the stack page `P` and their addresses in `ustack`. -/
def Placed (m : Mem) (P ustack : Addr) (v : ℕ) (c sp : ℕ) (strs : List (List Byte)) : Prop :=
  ∀ i str, strs[i]? = some str →
    load 64 m (off ustack (8 * (c + i))) = BitVec.ofNat 64 (place sp strs i) ∧
    ∀ j ≤ str.length, m (off P (place sp strs i - 4096 * v + j)) = str.getD j 0

def pushedBytes (P ustack : Addr) (v c sp sp' n : ℕ) : Set Addr :=
  span (off P (sp' - 4096 * v)) (sp - sp') ∪ span (off ustack (8 * c)) (8 * n)

section Push
variable {ustack : Addr} {argv : List Addr} {strs : List (List Byte)} {c : ℕ} {sp : BitVec 64}

theorem Built.push {U : Set Addr} (hsym : sym.Fits) (hb : Built sym trapframe k₀ L U root k t sz)
    (hst : Stack k t (pagesOf sz) v) (sp src : Addr) (len : BitVec 64) (hlow : 4096 * v ≤ sp.toNat)
    (hhigh : sp.toNat + len.toNat ≤ 4096 * (v + 1)) (hap : ∀ i < len.toNat, off src i ∉ region L) :
    ∃ m, copyout root sp src len k = some (0, ⟨m, k.freelist⟩) ∧
      Built sym trapframe k₀ L U root ⟨m, k.freelist⟩ t sz ∧ (∀ w, lookup m t w = lookup k.mem t w) ∧
      (∀ i < len.toNat, m (off (leafPage k t v) (sp.toNat - 4096 * v + i)) = k.mem (off src i)) ∧
      Frame (span (off (leafPage k t v) (sp.toNat - 4096 * v)) len.toNat) k.mem m := by
  obtain ⟨m, hrun, hf, hmoved⟩ := hb.image.copyout hsym hst.lt hst.user hst.writable hlow hhigh
    fun i hi hin => hap i hi (page_subset_region (hb.leaf_mem hst.lt) hin)
  obtain ⟨hb', hmap⟩ := hb.write hst.lt hf
  refine ⟨m, hrun, hb', hmap, hmoved.copied, hmoved.frame.mono ?_⟩
  rintro x ⟨i, hi, rfl⟩
  rw [← off_off]
  exact off_mem_span _ hi (by have := len.isLt; omega)

theorem room_cons (str : List Byte) (strs : List (List Byte)) : room (str :: strs) = up16 (str.length + 1) + room strs := by
  rw [room, room, List.map_cons, List.sum_cons]

theorem place_zero (sp : ℕ) (str : List Byte) (strs : List (List Byte)) :
    place sp (str :: strs) 0 = sp - up16 (str.length + 1) := by
  simp [place, room]

theorem place_succ (sp : ℕ) (str : List Byte) (strs : List (List Byte)) (i : ℕ) :
    place sp (str :: strs) (i + 1) = place (sp - up16 (str.length + 1)) strs i := by
  rw [place, place, List.take_succ_cons, room_cons, Nat.sub_add_eq]

/-- `pushArgs` gives up exactly when the strings do not fit. -/
def PushPost (sym : Symbols) (trapframe : Addr) (k₀ : Kmem) (L : Finset Addr) (root ustack : Addr) (t : Pt)
    (sz : BitVec 64) (v : ℕ) (s : Machine) (c sp : ℕ) (strs : List (List Byte)) (r : Option (ℕ × BitVec 64))
    (s' : Machine) : Prop :=
  ∃ m, s' = { s with mem := ⟨m, s.mem.freelist⟩ } ∧
    Built sym trapframe k₀ L (span ustack 256) root ⟨m, s.mem.freelist⟩ t sz ∧
    (∀ w, lookup m t w = lookup s.mem.mem t w) ∧
    match r with
    | none => sp < 4096 * v + room strs
    | some (c', sp') => c' = c + strs.length ∧ sp'.toNat + room strs = sp ∧ 4096 * v ≤ sp'.toNat ∧
        Placed m (leafPage s.mem t v) ustack v c sp strs ∧
        Frame (pushedBytes (leafPage s.mem t v) ustack v c sp sp'.toNat strs.length) s.mem.mem m

theorem pushedBytes_mono {ustack : Addr} {v c sp sp' n : ℕ}
    (hX : X ⊆ span (off P (sp' - 4096 * v)) (sp - sp') ∨ X ⊆ span (off ustack (8 * c)) (8 * n)) :
    X ⊆ pushedBytes P ustack v c sp sp' n := by
  rcases hX with hX | hX
  · exact hX.trans Set.subset_union_left
  · exact hX.trans Set.subset_union_right

theorem PushPost.cons {m₁ : Mem} {sp sp₁ : ℕ} {w₁ : BitVec 64} {r : Option (ℕ × BitVec 64)}
    (hP : leafPage s.mem t v = P) (hPU : Disjoint (page P) (span ustack 256)) (hc : c + 1 + strs.length ≤ 32)
    (hsp₁ : sp₁ + up16 (str.length + 1) = sp) (hlow : 4096 * v ≤ sp₁) (hhigh : sp ≤ 4096 * (v + 1))
    (hw₁ : w₁.toNat = sp₁) (hbytes : ∀ i ≤ str.length, m₁ (off P (sp₁ - 4096 * v + i)) = str.getD i 0)
    (hf₁ : Frame (span (off P (sp₁ - 4096 * v)) (str.length + 1)) s.mem.mem m₁)
    (hmap : ∀ w, lookup (store m₁ (off ustack (8 * c)) w₁) t w = lookup s.mem.mem t w)
    (h : PushPost sym trapframe k₀ L root ustack t sz v
      { s with mem := ⟨store m₁ (off ustack (8 * c)) w₁, s.mem.freelist⟩ } (c + 1) sp₁ strs r s') :
    PushPost sym trapframe k₀ L root ustack t sz v s c sp (str :: strs) r s' := by
  have hle := le_up16 (str.length + 1)
  have hcell : span (off ustack (8 * c)) 8 ⊆ span ustack 256 := span_off_subset ustack (by omega) (by norm_num)
  have hP₂ : leafPage ⟨store m₁ (off ustack (8 * c)) w₁, s.mem.freelist⟩ t v = P :=
    (congrArg PTE2PA (hmap v)).trans hP
  have hstore := store64_frame m₁ (off ustack (8 * c)) w₁
  obtain ⟨m, rfl, hb, hlook, hr⟩ := h
  refine ⟨m, rfl, hb, fun w => (hlook w).trans (hmap w), ?_⟩
  cases r with
  | none =>
    change sp₁ < 4096 * v + room strs at hr
    change sp < 4096 * v + room (str :: strs)
    rw [room_cons]
    omega
  | some r =>
    obtain ⟨c', sp'⟩ := r
    obtain ⟨hc', hroom, hge, hplaced, hf⟩ := hr
    rw [hP₂] at hplaced hf
    have hup : pushedBytes P ustack v (c + 1) sp₁ sp'.toNat strs.length ⊆
        pushedBytes P ustack v c sp sp'.toNat (strs.length + 1) := by
      refine Set.union_subset (pushedBytes_mono (Or.inl (span_mono _ (by omega)))) (pushedBytes_mono (Or.inr ?_))
      rw [show off ustack (8 * (c + 1)) = off (off ustack (8 * c)) 8 by rw [off_off]; congr 1]
      exact span_off_subset _ (by omega) (by omega)
    -- the string, and the cell of `ustack` that points to it, are not touched again
    have hrest : span (off ustack (8 * (c + 1))) (8 * strs.length) ⊆ span ustack 256 :=
      span_off_subset ustack (by omega) (by norm_num)
    have hstring : span (off P (sp₁ - 4096 * v)) (str.length + 1) ⊆ page P :=
      span_off_subset P (by unfold pageBytes; omega) (by decide)
    have hbelow : span (off P (sp'.toNat - 4096 * v)) (sp₁ - sp'.toNat) ⊆ page P :=
      span_off_subset P (by unfold pageBytes; omega) (by decide)
    have hd₁ : Disjoint (span (off ustack (8 * c)) 8) (pushedBytes P ustack v (c + 1) sp₁ sp'.toNat strs.length) :=
      Set.disjoint_union_right.mpr ⟨(hPU.mono hbelow hcell).symm, span_off_disjoint ustack (by omega) (by omega)⟩
    have hd₂ : Disjoint (span (off P (sp₁ - 4096 * v)) (str.length + 1))
        (pushedBytes P ustack v (c + 1) sp₁ sp'.toNat strs.length) :=
      Set.disjoint_union_right.mpr ⟨(span_off_disjoint P (by omega) (by omega)).symm, hPU.mono hstring hrest⟩
    refine ⟨by rw [hc', List.length_cons]; omega, by rw [room_cons]; omega, hge, ?_, ?_⟩
    · rw [hP]
      intro i str' hi
      cases i with
      | zero =>
        obtain rfl : str = str' := Option.some.inj hi
        have hplace : place sp (str :: strs) 0 = sp₁ := by
          rw [place_zero]
          omega
        rw [hplace]
        refine ⟨?_, fun j hj => ?_⟩
        · rw [hf.load_eq hd₁ (by norm_num)]
          refine (load_store64 _ _ _).trans ?_
          rw [← hw₁, BitVec.ofNat_toNat, BitVec.setWidth_eq]
        · rw [← off_off, hf.byte hd₂ (show j < str.length + 1 by omega) (by omega)]
          have := hstore.byte (hPU.mono hstring hcell) (show j < str.length + 1 by omega) (by omega)
          refine this.trans ?_
          rw [off_off]
          exact hbytes j hj
      | succ i =>
        have hnext := hplaced i str' hi
        rw [place_succ, show sp - up16 (str.length + 1) = sp₁ by omega, show c + (i + 1) = c + 1 + i by omega]
        exact hnext
    · rw [hP, List.length_cons]
      refine ((hf₁.mono (pushedBytes_mono (Or.inl ?_))).trans (hstore.mono (pushedBytes_mono (Or.inr ?_)))).trans
        (hf.mono hup)
      · rw [show off P (sp₁ - 4096 * v) = off (off P (sp'.toNat - 4096 * v)) (sp₁ - sp'.toNat) by
          rw [off_off]; congr 1; omega]
        exact span_off_subset _ (by omega) (by omega)
      · exact span_mono _ (by omega)

theorem pushArgs_wp (hsym : sym.Fits) (hU : Disjoint (region L) (span ustack 256))
    (hargs : List.Forall₂ (Arg k₀ L (span ustack 256)) argv strs) (hc : c + argv.length < MAXARG)
    (hsp : sp.toNat % 16 = 0) (hlow : 4096 * v ≤ sp.toNat) (hhigh : sp.toNat ≤ 4096 * (v + 1))
    (hb : Built sym trapframe k₀ L (span ustack 256) root s.mem t sz) (hst : Stack s.mem t (pagesOf sz) v) :
    wp (pushArgs root ustack (BitVec.ofNat 64 (4096 * v)) argv c sp)
      (PushPost sym trapframe k₀ L root ustack t sz v s c sp.toNat strs) E s := by
  induction hargs generalizing c sp s with
  | nil =>
    refine ⟨s.mem.mem, rfl, hb, fun _ => rfl, rfl, rfl, hlow, fun i str h => ?_, Frame.refl _ _⟩
    cases h
  | @cons a str argv strs ha hargs ih =>
    have hvlt := hst.lt
    have hbound := hb.image.bound
    have hpos := hst.pos
    have hshort := ha.string.short
    have hstr : CString s.mem.mem a str := ha.string.frame hb.frame ha.apart
    rw [List.length_cons] at hc
    unfold MAXARG at hc
    unfold PGSIZE at hshort
    have hbase : (BitVec.ofNat 64 (4096 * v)).toNat = 4096 * v := by
      rw [BitVec.toNat_ofNat]
      omega
    have hlen : (BitVec.ofNat 64 (str.length + 1)).toNat = str.length + 1 := by
      rw [BitVec.toNat_ofNat]
      omega
    have hsp₁ := align_sub (n := BitVec.ofNat 64 (str.length + 1)) hsp (by omega)
    rw [pushArgs, if_neg (by unfold MAXARG; omega), wp_bind, wp_get, hstr.strlen_eq]
    dsimp only
    generalize sp - BitVec.ofNat 64 (str.length + 1) - (sp - BitVec.ofNat 64 (str.length + 1)) % 16 = sp₁ at hsp₁ ⊢
    rw [hlen] at hsp₁
    have hle := le_up16 (str.length + 1)
    have hmod := up16_mod (str.length + 1)
    have hup : up16 (str.length + 1) ≤ sp.toNat := (up16_le (b := 4096) (by omega) (by omega)).trans (by omega)
    by_cases hlt : sp₁ < BitVec.ofNat 64 (4096 * v)
    · rw [if_pos hlt]
      have := BitVec.lt_def.mp hlt
      refine ⟨s.mem.mem, rfl, hb, fun _ => rfl, ?_⟩
      change sp.toNat < 4096 * v + room (str :: strs)
      rw [room_cons]
      omega
    · rw [if_neg hlt]
      have hge := BitVec.lt_def.not.mp hlt
      rw [hbase] at hge
      obtain ⟨m₁, hrun, hb₁, hmap₁, hbytes, hf₁⟩ := hb.push hsym hst sp₁ a
        (BitVec.ofNat 64 (str.length + 1)) (by omega) (by omega) fun i hi hin => by
          have hd := Set.disjoint_left.mp ha.apart (off_mem_span a (show i < pageBytes by unfold pageBytes; omega)
            (by omega))
          exact hd (Or.inl hin)
      rw [hlen] at hbytes hf₁
      have hP := hb.leaf_mem hst.lt
      have hcell : span (off ustack (8 * c)) 8 ⊆ span ustack 256 := span_off_subset ustack (by omega) (by norm_num)
      obtain ⟨hb₂, hmap₂⟩ := hb₁.kernel hcell hU (store64_frame m₁ (off ustack (8 * c)) sp₁)
      refine (wp_onMem (Q := fun r s' => r = 0 ∧ s' = { s with mem := ⟨m₁, s.mem.freelist⟩ }) hrun ⟨rfl, rfl⟩).bind ?_
      rintro _ _ ⟨rfl, rfl⟩
      rw [if_neg (lt_irrefl _), wp_bind]
      refine wp_setMem ?_
      have hmap : ∀ w, lookup (store m₁ (off ustack (8 * c)) sp₁) t w = lookup s.mem.mem t w := fun w =>
        (hmap₂ w).trans (hmap₁ w)
      refine (ih (s := { s with mem := ⟨store m₁ (off ustack (8 * c)) sp₁, s.mem.freelist⟩ }) (by unfold MAXARG; omega)
        (by omega) (by omega) (by omega) hb₂ (hst.congr hmap)).mono fun r s' hpost => ?_
      have hlength := hargs.length_eq
      rw [hsp₁] at hpost
      refine hpost.cons rfl (hU.mono_left (page_subset_region hP)) (by omega) (by omega) (by omega) hhigh hsp₁ ?_ ?_ hmap
      · intro i hi
        rw [← hsp₁, hbytes i (by omega)]
        rcases Nat.lt_or_eq_of_le hi with hi | rfl
        · exact (hstr.bytes i hi).1
        · rw [hstr.nul]
          simp
      · rw [← hsp₁]
        exact hf₁

theorem room_take_le (strs : List (List Byte)) (i : ℕ) : room (strs.take i) ≤ room strs := by
  induction strs generalizing i with
  | nil => simp
  | cons str strs ih =>
    cases i with
    | zero => simp [room]
    | succ i =>
      rw [List.take_succ_cons, room_cons, room_cons]
      exact Nat.add_le_add_left (ih i) _

theorem room_mod (strs : List (List Byte)) : room strs % 16 = 0 := by
  induction strs with
  | nil => rfl
  | cons str strs ih =>
    have := up16_mod (str.length + 1)
    rw [room_cons]
    omega

theorem room_take_succ {strs : List (List Byte)} {i : ℕ} (h : strs[i]? = some str) :
    room (strs.take (i + 1)) = room (strs.take i) + up16 (str.length + 1) := by
  rw [List.take_add_one, h, room, room, List.map_append, List.sum_append]
  simp

theorem place_bounds (top : ℕ) {i : ℕ} (h : strs[i]? = some str) (hroom : room strs ≤ top) :
    top - room strs ≤ place top strs i ∧ place top strs i + (str.length + 1) ≤ top - room (strs.take i) := by
  have h₁ := room_take_le strs (i + 1)
  have h₂ := room_take_succ h
  have h₃ := le_up16 (str.length + 1)
  unfold place
  omega

/-- The strings and the array of pointers are on the stack page `P`, which ends at `top`. -/
structure OnStack (m : Mem) (P : Addr) (v sp : ℕ) (strs : List (List Byte)) : Prop where
  sp_eq : sp + room strs + up16 (8 * (strs.length + 1)) = 4096 * (v + 1)
  low : 4096 * v ≤ sp
  pointer : ∀ i < strs.length,
    load 64 m (off P (sp - 4096 * v + 8 * i)) = BitVec.ofNat 64 (place (4096 * (v + 1)) strs i)
  nul : load 64 m (off P (sp - 4096 * v + 8 * strs.length)) = 0
  bytes : ∀ i str, strs[i]? = some str → ∀ j ≤ str.length,
    m (off P (place (4096 * (v + 1)) strs i - 4096 * v + j)) = str.getD j 0

theorem OnStack.of_copy {m₁ m₃ : Mem} {sp : ℕ} (hPU : Disjoint (page P) (span ustack 256))
    (hlen : 8 * (strs.length + 1) ≤ 256) (hplaced : Placed m₁ P ustack v 0 (4096 * (v + 1)) strs)
    (hsp : sp + room strs + up16 (8 * (strs.length + 1)) = 4096 * (v + 1)) (hlow : 4096 * v ≤ sp)
    (hwords : ∀ i < 8 * (strs.length + 1), m₃ (off P (sp - 4096 * v + i)) = store m₁ (off ustack (8 * strs.length))
      (0 : BitVec 64) (off ustack i))
    (hf : Frame (span (off P (sp - 4096 * v)) (8 * (strs.length + 1))) (store m₁ (off ustack (8 * strs.length))
      (0 : BitVec 64)) m₃) :
    OnStack m₃ P v sp strs := by
  have hle := le_up16 (8 * (strs.length + 1))
  have hstore := store64_frame m₁ (off ustack (8 * strs.length)) (0 : BitVec 64)
  have hcell : span (off ustack (8 * strs.length)) 8 ⊆ span ustack 256 := span_off_subset ustack (by omega) (by norm_num)
  have hload : ∀ i ≤ strs.length, load 64 m₃ (off P (sp - 4096 * v + 8 * i)) =
      load 64 (store m₁ (off ustack (8 * strs.length)) (0 : BitVec 64)) (off ustack (8 * i)) := by
    intro i hi
    refine load_congr fun j hj => ?_
    rw [off_off, off_off, Nat.add_assoc]
    exact hwords _ (by omega)
  refine ⟨hsp, hlow, fun i hi => ?_, ?_, fun i str hi j hj => ?_⟩
  · obtain ⟨str, hstr⟩ : ∃ str, strs[i]? = some str := ⟨strs[i], List.getElem?_eq_getElem hi⟩
    rw [hload i hi.le, hstore.load_off (by omega) (by omega) (by omega)]
    have := (hplaced i str hstr).1
    rwa [Nat.zero_add] at this
  · rw [hload _ le_rfl]
    exact load_store64 _ _ _
  · obtain ⟨h₁, h₂⟩ := place_bounds (4096 * (v + 1)) hi (by omega)
    have hd := (hPU.mono (span_off_subset P (j := place (4096 * (v + 1)) strs i - 4096 * v) (n := j + 1)
      (by unfold pageBytes; omega) (by decide)) hcell)
    rw [hf.byte_off (by omega) (by omega) (by omega), ← off_off]
    refine (hstore.byte hd (Nat.lt_succ_self j) (by omega)).trans ?_
    rw [off_off]
    exact (hplaced i str hi).2 j hj

/-- `pushStack` gives up exactly when the strings and the array do not fit on the page. -/
def StackPost (sym : Symbols) (trapframe : Addr) (k₀ : Kmem) (L : Finset Addr) (root ustack : Addr) (t : Pt)
    (sz : BitVec 64) (v : ℕ) (s : Machine) (strs : List (List Byte)) (r : Option (ℕ × BitVec 64)) (s' : Machine) : Prop :=
  ∃ m, s' = { s with mem := ⟨m, s.mem.freelist⟩ } ∧
    Built sym trapframe k₀ L (span ustack 256) root ⟨m, s.mem.freelist⟩ t sz ∧
    (∀ w, lookup m t w = lookup s.mem.mem t w) ∧
    match r with
    | none => 4096 < room strs + up16 (8 * (strs.length + 1))
    | some (argc, sp) => argc = strs.length ∧ OnStack m (leafPage s.mem t v) v sp.toNat strs

theorem pushStack_wp (hsym : sym.Fits) (hU : Disjoint (region L) (span ustack 256))
    (hargs : List.Forall₂ (Arg k₀ L (span ustack 256)) argv strs) (hc : argv.length < MAXARG)
    (hsp : sp.toNat = 4096 * (v + 1))
    (hb : Built sym trapframe k₀ L (span ustack 256) root s.mem t sz) (hst : Stack s.mem t (pagesOf sz) v) :
    wp (pushStack root ustack (BitVec.ofNat 64 (4096 * v)) argv sp)
      (StackPost sym trapframe k₀ L root ustack t sz v s strs) E s := by
  have hlength := hargs.length_eq
  have hpos := hst.pos
  have hvlt := hst.lt
  have hbound := hb.image.bound
  have hbase : (BitVec.ofNat 64 (4096 * v)).toNat = 4096 * v := by
    rw [BitVec.toNat_ofNat]
    omega
  refine (pushArgs_wp hsym hU hargs (c := 0) (by omega) (by omega) (by omega) (by omega) hb hst).bind ?_
  rintro r _ ⟨m₁, rfl, hb₁, hmap₁, hr⟩
  unfold MAXARG at hc
  cases r with
  | none =>
    refine ⟨m₁, rfl, hb₁, hmap₁, ?_⟩
    change sp.toNat < 4096 * v + room strs at hr
    change 4096 < room strs + up16 _
    omega
  | some r =>
    obtain ⟨argc, sp₁⟩ := r
    obtain ⟨hargc, hroom, hlow₁, hplaced, -⟩ := hr
    obtain rfl : argc = strs.length := by omega
    have hmod := room_mod strs
    have hcell : span (off ustack (8 * strs.length)) 8 ⊆ span ustack 256 := span_off_subset ustack (by omega) (by norm_num)
    have hstore := store64_frame m₁ (off ustack (8 * strs.length)) (0 : BitVec 64)
    obtain ⟨hb₂, hmap₂⟩ := hb₁.kernel hcell hU hstore
    have hmap : ∀ w, lookup (store m₁ (off ustack (8 * strs.length)) (0 : BitVec 64)) t w = lookup s.mem.mem t w := fun w =>
      (hmap₂ w).trans (hmap₁ w)
    dsimp only
    rw [wp_bind]
    refine wp_setMem ?_
    generalize hm₂ : store m₁ (off ustack (8 * strs.length)) (0 : BitVec 64) = m₂ at *
    have hlen : (BitVec.ofNat 64 (8 * (strs.length + 1))).toNat = 8 * (strs.length + 1) := by
      rw [BitVec.toNat_ofNat]
      omega
    have hsp₂ := align_sub (n := BitVec.ofNat 64 (8 * (strs.length + 1))) (show sp₁.toNat % 16 = 0 by omega) (by omega)
    generalize sp₁ - BitVec.ofNat 64 (8 * (strs.length + 1)) - (sp₁ - BitVec.ofNat 64 (8 * (strs.length + 1))) % 16 = sp₂
      at hsp₂ ⊢
    rw [hlen] at hsp₂
    have hup : up16 (8 * (strs.length + 1)) ≤ 256 := up16_le (by omega) (by omega)
    have hle := le_up16 (8 * (strs.length + 1))
    split
    · next hlt =>
      have := BitVec.lt_def.mp hlt
      refine ⟨m₂, rfl, hb₂, hmap, ?_⟩
      change 4096 < room strs + up16 _
      omega
    · next hlt =>
      have hge := BitVec.lt_def.not.mp hlt
      have hP : leafPage ⟨m₂, s.mem.freelist⟩ t v = leafPage s.mem t v := congrArg PTE2PA (hmap v)
      have hPU := hU.mono_left (page_subset_region (hb.leaf_mem hst.lt))
      obtain ⟨m₃, hrun, hb₃, hmap₃, hwords, hf₃⟩ := hb₂.push hsym (hst.congr hmap) sp₂ ustack
        (BitVec.ofNat 64 (8 * (strs.length + 1))) (by omega) (by omega) fun i hi hin =>
          Set.disjoint_left.mp hU hin (off_mem_span ustack (by omega) (by omega))
      rw [hlen, hP] at hwords hf₃
      refine (wp_onMem (s := { s with mem := ⟨m₂, s.mem.freelist⟩ })
        (Q := fun r s' => r = 0 ∧ s' = { s with mem := ⟨m₃, s.mem.freelist⟩ }) hrun ⟨rfl, rfl⟩).bind ?_
      rintro _ _ ⟨rfl, rfl⟩
      rw [if_neg (lt_irrefl _)]
      refine ⟨m₃, rfl, hb₃, fun w => (hmap₃ w).trans (hmap w), rfl, ?_⟩
      subst hm₂
      exact OnStack.of_copy hPU (by omega) (hsp ▸ hplaced) (by omega) (by omega) hwords hf₃

end Push

theorem Built.uvmclear (h : Built sym trapframe k₀ L U root k t sz) (hv : v < pagesOf sz)
    (hflags : PTE_FLAGS (lookup k.mem t v) = PTE_R ||| PTE_U ||| PTE_W ||| PTE_V) (hva : va.toNat = 4096 * v) :
    ∃ k', Kernel.uvmclear root va k = some k' ∧ Built sym trapframe k₀ L U root k' t sz ∧
      lookup k'.mem t = Function.update (lookup k.mem t) v (lookup k.mem t v &&& ~~~PTE_U) := by
  obtain ⟨k', hrun, hf, himage, hpages, hmap⟩ := h.image.uvmclear hv hflags hva
  refine ⟨k', hrun, ⟨himage, hpages.trans h.pages, h.frame.trans (hf.mono ?_)⟩, hmap⟩
  exact (region_mono h.own_subset).trans Set.subset_union_left

/-- The stack page, and below it a page that the user cannot use. -/
structure Guarded (k : Kmem) (t : Pt) (n v : ℕ) : Prop extends Stack k t n v where
  guard : lookup k.mem t (v - 1) &&& PTE_U = 0

theorem allocStack_wp (hsym : sym.Fits) (hsz : sz.toNat % 4096 = 0) (hb : Built sym trapframe k₀ L U root s.mem t sz) :
    wp (allocStack sym root sz) (fun r s' => ∃ k t', s' = { s with mem := k } ∧
      match r with
      | none => Built sym trapframe k₀ L U root k t' sz
      | some sz1 => Built sym trapframe k₀ L U root k t' sz1 ∧
          ∃ v, sz1.toNat = 4096 * (v + 1) ∧ Guarded k t' (pagesOf sz1) v) E s := by
  have hle := hb.size_le
  have hnew : (sz + BitVec.ofNat 64 ((USERSTACK + 1) * PGSIZE)).toNat = sz.toNat + 8192 := by
    rw [BitVec.toNat_add, show (BitVec.ofNat 64 ((USERSTACK + 1) * PGSIZE)).toNat = 8192 from rfl]
    omega
  obtain ⟨r, k, t', hrun, hb', -, hflags, hr⟩ := hb.uvmalloc hsym (show PTE_W.toNat < 1024 by decide)
    (sz + BitVec.ofNat 64 ((USERSTACK + 1) * PGSIZE))
  refine (wp_onMem (Q := fun r' s' => r = r' ∧ s' = { s with mem := k }) hrun ⟨rfl, rfl⟩).bind ?_
  rintro _ _ ⟨rfl, rfl⟩
  split
  · next h0 =>
    rw [if_pos h0] at hb'
    exact ⟨k, t', rfl, hb'⟩
  · next h0 =>
    rw [if_neg h0] at hb' hflags
    have hr' := hr h0
    rw [if_neg (by rw [BitVec.lt_def]; omega)] at hr'
    have hrnat : r.toNat = sz.toNat + 8192 := hr' ▸ hnew
    have hpages : pagesOf sz = sz.toNat / 4096 := by
      unfold pagesOf
      omega
    have hpages' : pagesOf r = sz.toNat / 4096 + 2 := by
      unfold pagesOf
      omega
    rw [hpages, hpages'] at hflags
    have hva : (r - BitVec.ofNat 64 ((USERSTACK + 1) * PGSIZE)).toNat = 4096 * (sz.toNat / 4096) := by
      rw [BitVec.toNat_sub_of_le (by rw [BitVec.le_def, hrnat]; exact Nat.le_add_left _ _), hrnat,
        show (BitVec.ofNat 64 ((USERSTACK + 1) * PGSIZE)).toNat = 8192 from rfl]
      omega
    obtain ⟨k', hclear, hb'', hmap⟩ := hb'.uvmclear (by omega) (hflags _ le_rfl (by omega)) hva
    refine (wp_onMem (s := { s with mem := k }) (Q := fun _ s' => s' = { s with mem := k' }) (by rw [hclear]; rfl)
      rfl).bind ?_
    rintro _ _ rfl
    have htop := hflags (sz.toNat / 4096 + 1) (by omega) (by omega)
    have hkeep : lookup k'.mem t' (sz.toNat / 4096 + 1) = lookup k.mem t' (sz.toNat / 4096 + 1) := by
      rw [hmap, Function.update_of_ne (by omega)]
    refine ⟨k', t', rfl, hb'', sz.toNat / 4096 + 1, by omega, ⟨by omega, by omega, ?_, ?_⟩, ?_⟩
    · rw [hkeep, and_of_flags htop (by decide)]
      decide
    · rw [hkeep, and_of_flags htop (by decide)]
      decide
    · rw [Nat.add_sub_cancel, hmap, Function.update_self, BitVec.and_assoc]
      exact BitVec.and_zero

/-! ## Giving up -/

/-- The free pages are those of `L` again. -/
def Freed (k₀ : Kmem) (L : Finset Addr) (U : Set Addr) (k : Kmem) : Prop :=
  ∃ l, Pool k.mem k.freelist l ∧ l.toFinset = L ∧ Frame (region L ∪ U) k₀.mem k.mem

theorem Built.root_ne_zero (h : Built sym trapframe k₀ L U root k t sz) (hsym : sym.Fits) : root ≠ 0 := by
  rw [← h.image.root]
  exact (h.image.isPage _ (Pt.addr_mem_own h.image.kpt.table.root_mem)).ne_zero hsym

/-- There is no new image yet, or there is one and `proc_freepagetable` can free it. -/
def Undoable (sym : Symbols) (trapframe : Addr) (k₀ : Kmem) (L : Finset Addr) (U : Set Addr) (root : Addr)
    (sz : BitVec 64) (k : Kmem) : Prop :=
  (root = 0 ∧ Freed k₀ L U k) ∨ ∃ t, Built sym trapframe k₀ L U root k t sz

theorem freeImage_wp {Q : Unit → Machine → Prop} (hrun : procFreepagetable sym root sz s.mem = some k)
    (hq : Q () { s with mem := k }) : wp (freeImage sym root sz) Q E s :=
  wp_onMem (by rw [hrun]; rfl) hq

theorem Undoable.discard_wp (h : Undoable sym trapframe k₀ L U root sz s.mem) (hsym : sym.Fits) :
    wp (discard sym root sz) (fun _ s' => ∃ k, s' = { s with mem := k } ∧ Freed k₀ L U k) E s := by
  unfold discard
  rcases h with ⟨rfl, h⟩ | ⟨t, h⟩
  · rw [if_neg fun h0 => h0 rfl]
    exact ⟨s.mem, rfl, h⟩
  · obtain ⟨k, l, hrun, hpool, hl, hf⟩ := h.free hsym
    rw [if_pos (h.root_ne_zero hsym)]
    exact freeImage_wp hrun ⟨k, rfl, l, hpool, hl, hf⟩

theorem closeFile_wp (hl : Layout sb) {fs₀ : Fs.State} (hg : Good sb F fs₀) (hw : Walked sb F fs₀ s.fs [ip]) :
    wp (closeFile sb ip) (fun _ s' => ∃ fs, s' = { s with fs := fs, ops := s.ops - 1 } ∧
      Walked sb F fs₀ fs []) E s := by
  unfold closeFile
  refine (wp_onFs (Q := fun _ s' => ∃ fs, s' = { s with fs := fs } ∧ Walked sb F fs₀ fs [])
    ((hw.unlockput hl hg).mono fun _ fs h => ⟨fs, rfl, h.1⟩)).bind ?_
  rintro _ _ ⟨fs, rfl, hw'⟩
  exact ⟨fs, rfl, hw'⟩

theorem Undoable.bad_closed (h : Undoable sym trapframe k₀ L U root sz s.mem) (hsym : sym.Fits) :
    wp (bad sym sb root sz none) (fun _ s' => ∃ k, s' = { s with mem := k } ∧ Freed k₀ L U k) E s := by
  unfold bad
  exact (h.discard_wp hsym).bind fun _ _ hs => hs

theorem Undoable.bad_open (h : Undoable sym trapframe k₀ L U root sz s.mem) (hsym : sym.Fits) (hl : Layout sb)
    {fs₀ : Fs.State} (hg : Good sb F fs₀) (hw : Walked sb F fs₀ s.fs [ip]) :
    wp (bad sym sb root sz (some ip)) (fun _ s' => ∃ fs k, s' = { s with fs := fs, mem := k, ops := s.ops - 1 } ∧
      Walked sb F fs₀ fs [] ∧ Freed k₀ L U k) E s := by
  unfold bad
  refine (h.discard_wp hsym).bind ?_
  rintro _ _ ⟨k, rfl, hk⟩
  refine (closeFile_wp (s := { s with mem := k }) hl hg hw).mono ?_
  rintro _ _ ⟨fs, rfl, hw'⟩
  exact ⟨fs, k, rfl, hw', hk⟩

end Xv6Boot.Kernel.Exec
