import Xv6Boot.Kernel.ExecSpec

/-! # `exec` from beginning to end

A run of `exec` ends as it began except for the pages that were free, or with the new image and with the pages of the
old one free.
-/

namespace Xv6Boot.Kernel.Exec
open ByteMemory Pages Program
open Xv6Boot.Kernel.Fs (Superblock Ip readi ilock iunlockput namei Layout Good Rows Tree Walked nodes)

variable {sym : Symbols} {sb : Superblock} {F : Set ℕ} {E : String → Prop} {s₀ s s' : Machine} {root ustack : Addr}
  {t₀ t : Pt} {sz entry sp : BitVec 64} {ip : Ip} {v : ℕ} {path : List Byte} {argv : List Addr}
  {strs : List (List Byte)} {m : Mem} {fs : Fs.State} {k : Kmem}

/-- A process with an image of its own calls `exec` on a consistent file system. Its trap frame and `ustack` are apart
and neither on its pages nor on free ones, and the argument strings are not on free pages. -/
structure Start (sym : Symbols) (sb : Superblock) (F : Set ℕ) (s₀ : Machine) (t₀ : Pt) (argv : List Addr) (ustack : Addr)
    (strs : List (List Byte)) : Prop where
  fits : sym.Fits
  layout : Layout sb
  good : Good sb F s₀.fs
  rows : Rows sb (nodes sb s₀.fs.cache)
  tree : Tree sb s₀.fs s₀.proc.cwd
  cwd : 0 < (s₀.fs.inode s₀.proc.cwd).ref
  image : Image sym s₀.proc.trapframe s₀.proc.pagetable s₀.mem t₀ (pagesOf s₀.proc.sz)
  trapframe_apart : Disjoint (region (t₀.pages s₀.mem (pagesOf s₀.proc.sz))) (page s₀.proc.trapframe)
  ustack_apart : Disjoint (region (t₀.pages s₀.mem (pagesOf s₀.proc.sz))) (span ustack 256)
  frames_apart : Disjoint (page s₀.proc.trapframe) (span ustack 256)
  few : argv.length < MAXARG
  args : List.Forall₂ (Arg s₀.mem t₀.free.toFinset (span ustack 256)) argv strs

/-! ## Committing -/

/-- The process runs the new program, and the pages of the old one are free. -/
structure Committed (sym : Symbols) (s₀ : Machine) (t₀ : Pt) (strs : List (List Byte)) (root : Addr)
    (sz entry sp : BitVec 64) (v : ℕ) (k : Kmem) (t : Pt) : Prop where
  image : Image sym s₀.proc.trapframe root k t (pagesOf sz)
  pages : t.pages k (pagesOf sz) = t₀.pages s₀.mem (pagesOf s₀.proc.sz)
  nodes : ∀ a ∈ t₀.dom, t₀.addr a ∈ t.free
  leaves : ∀ w < pagesOf s₀.proc.sz, leafPage s₀.mem t₀ w ∈ t.free
  size : sz.toNat = 4096 * (v + 1)
  guarded : Guarded k t (pagesOf sz) v
  stack : OnStack k.mem (leafPage k t v) v sp.toNat strs
  a1 : load 64 k.mem (off s₀.proc.trapframe 120) = sp
  epc : load 64 k.mem (off s₀.proc.trapframe 24) = entry
  stackPointer : load 64 k.mem (off s₀.proc.trapframe 48) = sp

theorem OnStack.frame {m' : Mem} {P : Addr} {sp : ℕ} {X : Set Addr} (h : OnStack m P v sp strs) (hf : Frame X m m')
    (hd : Disjoint (page P) X) : OnStack m' P v sp strs := by
  have hsp := h.sp_eq
  have hlow := h.low
  have hle := le_up16 (8 * (strs.length + 1))
  have hword : ∀ i ≤ strs.length, load 64 m' (off P (sp - 4096 * v + 8 * i)) = load 64 m (off P (sp - 4096 * v + 8 * i)) := by
    intro i hi
    exact hf.load_eq (hd.mono_left (word_subset_page P (by unfold pageBytes; omega))) (by norm_num)
  refine ⟨hsp, hlow, fun i hi => ?_, ?_, fun i str hi j hj => ?_⟩
  · rw [hword i hi.le]
    exact h.pointer i hi
  · rw [hword _ le_rfl]
    exact h.nul
  · obtain ⟨h₁, h₂⟩ := place_bounds (4096 * (v + 1)) hi (by omega)
    rw [hf.byte hd (show _ < pageBytes by unfold pageBytes; omega) (by omega)]
    exact h.bytes i str hi j hj

def setTrapframe (m : Mem) (trapframe : Addr) (entry sp : BitVec 64) : Mem :=
  store (store (store m (off trapframe 120) sp) (off trapframe 24) entry) (off trapframe 48) sp

theorem setTrapframe_frame (m : Mem) (trapframe : Addr) (entry sp : BitVec 64) :
    Frame (page trapframe) m (setTrapframe m trapframe entry sp) :=
  (((store64_frame _ _ _).mono (word_subset_page _ (by decide))).trans
    ((store64_frame _ _ _).mono (word_subset_page _ (by decide)))).trans
    ((store64_frame _ _ _).mono (word_subset_page _ (by decide)))

theorem setTrapframe_load (m : Mem) (trapframe : Addr) (entry sp : BitVec 64) :
    load 64 (setTrapframe m trapframe entry sp) (off trapframe 120) = sp ∧
      load 64 (setTrapframe m trapframe entry sp) (off trapframe 24) = entry ∧
      load 64 (setTrapframe m trapframe entry sp) (off trapframe 48) = sp := by
  unfold setTrapframe
  refine ⟨?_, ?_, load_store64 _ _ _⟩
  · rw [(store64_frame _ _ _).load_off (by omega) (by omega) (by omega),
      (store64_frame _ _ _).load_off (by omega) (by omega) (by omega)]
    exact load_store64 _ _ _
  · rw [(store64_frame _ _ _).load_off (by omega) (by omega) (by omega)]
    exact load_store64 _ _ _

theorem Pt.free_subset_pages (k : Kmem) (t : Pt) (n : ℕ) : t.free.toFinset ⊆ t.pages k n := fun _ hq =>
  Pt.own_subset_pages k t n (Pt.free_mem_own (List.mem_toFinset.mp hq))

section Commit
variable (h₀ : Start sym sb F s₀ t₀ argv ustack strs)
  (hb : Built sym s₀.proc.trapframe s₀.mem t₀.free.toFinset (span ustack 256) root s.mem t sz)
include h₀ hb

omit h₀ in
theorem Built.free_mem {q : Addr} (hq : q ∈ t.free) : q ∈ t₀.free :=
  List.mem_toFinset.mp (hb.own_subset (Pt.free_mem_own hq))

theorem Built.trapframe_apart : Disjoint (region t.own) (page s₀.proc.trapframe) :=
  h₀.trapframe_apart.mono_left (region_mono (hb.own_subset.trans (Pt.free_subset_pages _ _ _)))

theorem Built.old (htf : Frame (page s₀.proc.trapframe) s.mem.mem m) :
    Image sym s₀.proc.trapframe s₀.proc.pagetable ⟨m, s.mem.freelist⟩ { t₀ with free := t.free } (pagesOf s₀.proc.sz) ∧
      ∀ w, lookup m { t₀ with free := t.free } w = lookup s₀.mem.mem t₀ w := by
  have hf : Frame (region t₀.free.toFinset ∪ span ustack 256 ∪ page s₀.proc.trapframe) s₀.mem.mem
      (⟨m, s.mem.freelist⟩ : Kmem).mem :=
    (hb.frame.mono Set.subset_union_left).trans (htf.mono Set.subset_union_right)
  refine h₀.image.transfer hf ?_ ?_ ?_ ?_ ?_
  · intro a ha
    have hin : t₀.addr a ∈ t₀.pages s₀.mem (pagesOf s₀.proc.sz) := Pt.own_subset_pages _ _ _ (Pt.addr_mem_own ha)
    refine Set.disjoint_union_right.mpr ⟨Set.disjoint_union_right.mpr ⟨?_, ?_⟩, ?_⟩
    · refine page_disjoint_region (fun q hq => ?_) (h₀.image.kpt.aligned a ha) fun hq =>
        h₀.image.kpt.fresh a ha (List.mem_toFinset.mp hq)
      exact h₀.image.kpt.own_aligned (Pt.free_mem_own (List.mem_toFinset.mp hq))
    · exact h₀.ustack_apart.mono_left (page_subset_region hin)
    · exact h₀.trapframe_apart.mono_left (page_subset_region hin)
  · exact (hb.image.write htf (hb.trapframe_apart h₀)).1.kpt.pool
  · exact fun q hq => hb.image.isPage q (Pt.free_mem_own hq)
  · exact fun a ha hin => h₀.image.kpt.fresh a ha (hb.free_mem hin)
  · exact fun w hw hin => h₀.image.not_own w hw (Pt.free_mem_own (hb.free_mem hin))

theorem Built.release (htf : Frame (page s₀.proc.trapframe) s.mem.mem m) :
    ∃ k l, procFreepagetable sym s₀.proc.pagetable s₀.proc.sz ⟨m, s.mem.freelist⟩ = some k ∧
      (∀ q, q ∈ l ↔ q ∈ t.free ∨ q ∈ t₀.pages s₀.mem (pagesOf s₀.proc.sz) ∧ q ∉ t₀.free) ∧
      Frame (region ((t₀.pages s₀.mem (pagesOf s₀.proc.sz)).filter fun q => q ∈ l)) m k.mem ∧
      Image sym s₀.proc.trapframe root k { t with free := l } (pagesOf sz) ∧
      ∀ w, lookup k.mem { t with free := l } w = lookup s.mem.mem t w := by
  obtain ⟨hnew, hmapnew⟩ := hb.image.write htf (hb.trapframe_apart h₀)
  obtain ⟨hold, hmapold⟩ := hb.old h₀ htf
  have hmem : ∀ q, q ∈ ({ t₀ with free := t.free } : Pt).pages ⟨m, s.mem.freelist⟩ (pagesOf s₀.proc.sz) ↔
      q ∈ t.free ∨ q ∈ t₀.pages s₀.mem (pagesOf s₀.proc.sz) ∧ q ∉ t₀.free := fun q => h₀.image.mem_pages_free hmapold
  have hpages : t.pages ⟨m, s.mem.freelist⟩ (pagesOf sz) = t.pages s.mem (pagesOf sz) := Pt.pages_congr rfl fun w _ =>
    hmapnew w
  rw [hb.pages] at hpages
  obtain ⟨k, l, hrun, hl, hf, himage, hmap⟩ := hnew.release hold h₀.fits fun q hq hn hin => by
    rw [hpages, List.mem_toFinset] at hq
    rcases (hmem q).mp hin with hin | hin
    · exact hn hin
    · exact hin.2 hq
  have hfree : ∀ q, q ∈ l ↔ q ∈ t.free ∨ q ∈ t₀.pages s₀.mem (pagesOf s₀.proc.sz) ∧ q ∉ t₀.free := fun q => by
    rw [← hmem q, ← hl, List.mem_toFinset]
  refine ⟨k, l, hrun, hfree, hf.mono (region_mono fun q hq => ?_), himage, fun w => (hmap w).trans (hmapnew w)⟩
  refine Finset.mem_filter.mpr ⟨?_, (hfree q).mpr ((hmem q).mp hq)⟩
  rcases (hmem q).mp hq with hq | hq
  · exact Pt.free_subset_pages _ _ _ (List.mem_toFinset.mpr (hb.free_mem hq))
  · exact hq.1

/-- **The commit.** -/
theorem Built.commits (htf : Frame (page s₀.proc.trapframe) s.mem.mem m)
    (ha1 : load 64 m (off s₀.proc.trapframe 120) = sp) (hepc : load 64 m (off s₀.proc.trapframe 24) = entry)
    (hsp : load 64 m (off s₀.proc.trapframe 48) = sp) (hg : Guarded s.mem t (pagesOf sz) v)
    (hsz : sz.toNat = 4096 * (v + 1)) (hst : OnStack s.mem.mem (leafPage s.mem t v) v sp.toNat strs) :
    ∃ k l, procFreepagetable sym s₀.proc.pagetable s₀.proc.sz ⟨m, s.mem.freelist⟩ = some k ∧
      Committed sym s₀ t₀ strs root sz entry sp v k { t with free := l } := by
  obtain ⟨k, l, hrun, hfree, hf, himage, hall⟩ := hb.release h₀ htf
  have hword : ∀ j, j + 8 ≤ 4096 → load 64 k.mem (off s₀.proc.trapframe j) = load 64 m (off s₀.proc.trapframe j) := by
    intro j hj
    refine hf.load_eq ?_ (by norm_num)
    exact ((h₀.trapframe_apart.mono_left (region_mono (Finset.filter_subset _ _))).symm).mono_left (word_subset_page _ hj)
  have hP : leafPage k { t with free := l } v = leafPage s.mem t v := congrArg PTE2PA (hall v)
  have hleaf := hb.leaf_mem hg.lt
  refine ⟨k, l, hrun, himage, ?_, ?_, ?_, hsz, ⟨⟨hg.lt, hg.pos, ?_, ?_⟩, ?_⟩, ?_, ?_, ?_, ?_⟩
  · ext q
    have hin : q ∈ t₀.free → q ∈ t₀.pages s₀.mem (pagesOf s₀.proc.sz) := fun hin =>
      Pt.free_subset_pages _ _ _ (List.mem_toFinset.mpr hin)
    rw [hb.image.mem_pages_free hall, hfree, hb.pages, List.mem_toFinset]
    constructor
    · rintro ((hq | hq) | hq)
      · exact hin (hb.free_mem hq)
      · exact hq.1
      · exact hin hq.1
    · intro hq
      by_cases hq₀ : q ∈ t₀.free
      · by_cases hqt : q ∈ t.free
        · exact Or.inl (Or.inl hqt)
        · exact Or.inr ⟨hq₀, hqt⟩
      · exact Or.inl (Or.inr ⟨hq, hq₀⟩)
  · intro a ha
    exact (hfree _).mpr (Or.inr ⟨Pt.own_subset_pages _ _ _ (Pt.addr_mem_own ha), h₀.image.kpt.fresh a ha⟩)
  · intro w hw
    refine (hfree _).mpr (Or.inr ⟨Pt.mem_pages.mpr (Or.inr ⟨w, hw, rfl⟩), fun hin => ?_⟩)
    exact h₀.image.not_own w hw (Pt.free_mem_own hin)
  · rw [hall]
    exact hg.user
  · rw [hall]
    exact hg.writable
  · rw [hall]
    exact hg.guard
  · rw [hP]
    have hin := Pt.free_subset_pages s₀.mem t₀ (pagesOf s₀.proc.sz) hleaf
    refine (hst.frame htf (h₀.trapframe_apart.mono_left (page_subset_region hin))).frame hf ?_
    refine page_disjoint_region (fun q hq => (himage.isPage q (Pt.free_mem_own (Finset.mem_filter.mp hq).2)).aligned)
      (hb.image.page v hg.lt).aligned fun hq => ?_
    rcases (hfree _).mp (Finset.mem_filter.mp hq).2 with hq | hq
    · exact hb.image.not_own v hg.lt (Pt.free_mem_own hq)
    · exact hq.2 (List.mem_toFinset.mp hleaf)
  · rw [hword 120 (by omega), ha1]
  · rw [hword 24 (by omega), hepc]
  · rw [hword 48 (by omega), hsp]

end Commit

/-! ## Until the stack is there -/

def PreparePost (sym : Symbols) (sb : Superblock) (F : Set ℕ) (s₀ : Machine) (L : Finset Addr) (U : Set Addr)
    (r : Option (Addr × BitVec 64 × BitVec 64)) (s' : Machine) : Prop :=
  ∃ fs k, s' = { s₀ with fs := fs, mem := k } ∧ Walked sb F s₀.fs fs [] ∧
    match r with
    | none => Freed s₀.mem L U k
    | some (root, _, sz) => ∃ t v, Built sym s₀.proc.trapframe s₀.mem L U root k t sz ∧ sz.toNat = 4096 * (v + 1) ∧
        Guarded k t (pagesOf sz) v

theorem Start.clean (h₀ : Start sym sb F s₀ t₀ argv ustack strs) :
    Freed s₀.mem t₀.free.toFinset (span ustack 256) s₀.mem :=
  ⟨t₀.free, h₀.image.kpt.pool, rfl, Frame.refl _ _⟩

theorem Start.opened (h₀ : Start sym sb F s₀ t₀ argv ustack strs) (hw : Walked sb F s₀.fs fs [ip])
    (hv : (fs.inode ip).valid = true) : Open sb F fs ip :=
  ⟨hw.good, hw.ref_pos h₀.good, hv⟩

theorem Pt.pages_zero (k : Kmem) (t : Pt) : t.pages k 0 = t.own := by
  ext q
  simp [Pt.mem_pages]

theorem pagesOf_PGROUNDUP (h : sz.toNat ≤ 0x89000000) :
    (PGROUNDUP sz).toNat % 4096 = 0 ∧ pagesOf (PGROUNDUP sz) = pagesOf sz := by
  refine ⟨PGROUNDUP_aligned sz, ?_⟩
  unfold pagesOf
  rw [PGROUNDUP_toNat (by omega)]
  omega

theorem Built.roundup {k₀ : Kmem} {trapframe : Addr} {L : Finset Addr} {U : Set Addr}
    (h : Built sym trapframe k₀ L U root k t sz) : Built sym trapframe k₀ L U root k t (PGROUNDUP sz) := by
  obtain ⟨-, he⟩ := pagesOf_PGROUNDUP h.size_le
  exact ⟨he ▸ h.image, he ▸ h.pages, h.frame⟩

theorem loadProgram_wp (h₀ : Start sym sb F s₀ t₀ argv ustack strs) (hw : Walked sb F s₀.fs fs [ip])
    (hv : (fs.inode ip).valid = true) :
    wp (loadProgram sym sb ip s₀.proc.trapframe) (PreparePost sym sb F s₀ t₀.free.toFinset (span ustack 256)) E
      { s₀ with fs := fs, ops := s₀.ops + 1 } := by
  have hopen := h₀.opened hw hv
  have hfail : ∀ {root : Addr} {sz : BitVec 64} {k : Kmem},
      Undoable sym s₀.proc.trapframe s₀.mem t₀.free.toFinset (span ustack 256) root sz k →
      wp (do bad sym sb root sz (some ip); return none)
        (PreparePost sym sb F s₀ t₀.free.toFinset (span ustack 256)) E
        { s₀ with fs := fs, ops := s₀.ops + 1, mem := k } := by
    intro root sz k hk
    refine (hk.bad_open (s := { s₀ with fs := fs, ops := s₀.ops + 1, mem := k }) h₀.fits h₀.layout h₀.good hw).bind ?_
    rintro _ _ ⟨fs', k', rfl, hw', hk'⟩
    exact ⟨fs', k', by simp, hw', hk'⟩
  have hclean : Undoable sym s₀.proc.trapframe s₀.mem t₀.free.toFinset (span ustack 256) 0 0 s₀.mem :=
    Or.inl ⟨rfl, h₀.clean⟩
  unfold loadProgram
  refine (onFs_readi (s := { s₀ with fs := fs, ops := s₀.ops + 1 }) h₀.layout hopen 0 sizeofElfhdr).bind ?_
  intro r s' ⟨hs, _⟩
  rw [hs]
  obtain ⟨r, elf⟩ := r
  dsimp only
  split
  · exact hfail hclean
  split
  · exact hfail hclean
  obtain ⟨root, k, hrun, hf, hr⟩ := procPagetable_spec h₀.fits h₀.image.kpt.pool
    (fun q hq => h₀.image.isPage q (Pt.free_mem_own hq)) s₀.proc.trapframe
  have hf' := hf.mono (Set.subset_union_left (t := span ustack 256))
  refine (wp_onMem (s := { s₀ with fs := fs, ops := s₀.ops + 1 })
    (Q := fun r s' => root = r ∧ s' = { s₀ with fs := fs, ops := s₀.ops + 1, mem := k }) hrun ⟨rfl, rfl⟩).bind ?_
  rintro _ _ ⟨rfl, rfl⟩
  rcases hr with ⟨rfl, l, hpool, hl⟩ | ⟨h0, t, himage, hown⟩
  · rw [if_pos rfl]
    exact hfail (Or.inl ⟨rfl, l, hpool, hl, hf'⟩)
  · rw [if_neg h0]
    have hb : Built sym s₀.proc.trapframe s₀.mem t₀.free.toFinset (span ustack 256) root k t 0 := by
      refine ⟨himage, ?_, hf'⟩
      rw [show pagesOf 0 = 0 from rfl, Pt.pages_zero, hown]
    refine (loadSegments_wp (s := { s₀ with fs := fs, ops := s₀.ops + 1, mem := k }) h₀.layout h₀.fits _ hopen hb
      (fun v hv => absurd hv (Nat.not_lt_zero v))).bind ?_
    rintro ⟨ok, sz⟩ _ ⟨k₁, t₁, rfl, hb₁, -⟩
    dsimp only at hb₁ ⊢
    cases ok with
    | false => exact hfail (Or.inr ⟨t₁, hb₁⟩)
    | true =>
      rw [if_pos rfl]
      refine (closeFile_wp (s := { s₀ with fs := fs, ops := s₀.ops + 1, mem := k₁ }) h₀.layout h₀.good hw).bind ?_
      rintro _ _ ⟨fs', rfl, hw'⟩
      refine (allocStack_wp (s := { s₀ with fs := fs', ops := s₀.ops + 1 - 1, mem := k₁ }) h₀.fits
        (pagesOf_PGROUNDUP hb₁.size_le).1 hb₁.roundup).bind ?_
      rintro r _ ⟨k₂, t₂, rfl, hr⟩
      cases r with
      | none =>
        refine (Undoable.bad_closed (s := { s₀ with fs := fs', ops := s₀.ops + 1 - 1, mem := k₂ })
          (Or.inr ⟨t₂, hr⟩) h₀.fits).bind ?_
        rintro _ _ ⟨k₃, rfl, hk₃⟩
        exact ⟨fs', k₃, by simp, hw', hk₃⟩
      | some sz₁ =>
        obtain ⟨hb₂, v, hsz, hg⟩ := hr
        exact ⟨fs', k₂, by simp, hw', t₂, v, hb₂, hsz, hg⟩

theorem Start.namei_wp (h₀ : Start sym sb F s₀ t₀ argv ustack strs) (hE : s₀.fs.Scarce → E "iget: no inodes")
    (path : List Byte) :
    wp (namei sb path s₀.proc.cwd) (fun r fs => match r with
      | none => Walked sb F s₀.fs fs []
      | some ip => Walked sb F s₀.fs fs [ip] ∧ (nodes sb fs.cache (fs.inode ip).inum).type ≠ 0) E s₀.fs := by
  unfold namei
  refine (Fs.namex_walk h₀.layout h₀.good h₀.rows h₀.cwd hE (fun hn => absurd h₀.tree hn) path false).bind ?_
  intro r fs hr
  cases r with
  | none => exact hr.1
  | some r =>
    obtain ⟨hw, -, htree⟩ := hr
    obtain ⟨-, hnodes, hstays⟩ := htree h₀.tree
    refine ⟨hw, ?_⟩
    rw [hnodes]
    exact hstays.1

theorem prepare_wp (h₀ : Start sym sb F s₀ t₀ argv ustack strs) (hE : s₀.fs.Scarce → E "iget: no inodes")
    (path : List Byte) :
    wp (prepare sym sb path) (PreparePost sym sb F s₀ t₀.free.toFinset (span ustack 256)) E s₀ := by
  unfold prepare
  rw [wp_bind]
  change wp (get >>= _) _ E { s₀ with ops := s₀.ops + 1 }
  rw [wp_bind, wp_get]
  refine (wp_onFs (s := { s₀ with ops := s₀.ops + 1 }) (Q := fun r s' => ∃ fs, s' = { s₀ with fs := fs, ops :=
    s₀.ops + 1 } ∧
    match r with
    | none => Walked sb F s₀.fs fs []
    | some ip => Walked sb F s₀.fs fs [ip] ∧ (nodes sb fs.cache (fs.inode ip).inum).type ≠ 0)
    ((h₀.namei_wp hE path).mono fun _ fs h => ⟨fs, rfl, h⟩)).bind ?_
  rintro r _ ⟨fs, rfl, hr⟩
  cases r with
  | none => exact ⟨fs, s₀.mem, by simp, hr, h₀.clean⟩
  | some ip =>
    obtain ⟨hw, htype⟩ := hr
    refine (wp_onFs (s := { s₀ with fs := fs, ops := s₀.ops + 1 })
      (Q := fun _ s' => ∃ fs, s' = { s₀ with fs := fs, ops := s₀.ops + 1 } ∧ Walked sb F s₀.fs fs [ip] ∧
        (fs.inode ip).valid = true)
      ((Fs.ilock_wp hw.good (hw.ref_pos h₀.good) fun h => absurd h htype).mono fun _ fs h =>
        ⟨fs, rfl, hw.locked h.1 h.2.1, h.2.1.valid⟩)).bind ?_
    rintro _ _ ⟨fs', rfl, hw', hv⟩
    exact loadProgram_wp h₀ hw' hv

/-! ## With the stack -/

/-- What `exec` does to the process when it succeeds. -/
def Proc.become (p : Proc) (path : List Byte) (pagetable : Addr) (sz : BitVec 64) : Proc :=
  { p with name := safestrcpy p.name (lastElem path path) 16, pagetable := pagetable, sz := sz }

theorem commit_wp {Q : Unit → Machine → Prop}
    (hrun : procFreepagetable sym s.proc.pagetable s.proc.sz ⟨setTrapframe s.mem.mem s.proc.trapframe entry sp,
      s.mem.freelist⟩ = some k)
    (hq : Q () { s with mem := k, proc := s.proc.become path root sz }) :
    wp (commit sym path root sz entry sp) Q E s := by
  unfold commit
  rw [wp_bind, wp_get, wp_bind]
  refine wp_setMem ?_
  rw [wp_bind, wp_modify, wp_bind]
  refine wp_setMem ?_
  exact freeImage_wp hrun hq

def argRoom (strs : List (List Byte)) : ℕ := room strs + up16 (8 * (strs.length + 1))

/-- The arguments do not fit and nothing is left of the new image, or the process runs the new program. -/
def LaunchPost (sym : Symbols) (s₀ : Machine) (t₀ : Pt) (strs : List (List Byte)) (ustack : Addr) (path : List Byte)
    (root : Addr) (entry sz : BitVec 64) (v : ℕ) (fs : Fs.State) (r : ℤ) (s' : Machine) : Prop :=
  (r = -1 ∧ 4096 < argRoom strs ∧ ∃ k, s' = { s₀ with fs := fs, mem := k } ∧
      Freed s₀.mem t₀.free.toFinset (span ustack 256) k) ∨
    (r = strs.length ∧ argRoom strs ≤ 4096 ∧ ∃ k t sp,
      s' = { s₀ with fs := fs, mem := k, proc := s₀.proc.become path root sz } ∧
      Committed sym s₀ t₀ strs root sz entry sp v k t)

theorem launch_wp (h₀ : Start sym sb F s₀ t₀ argv ustack strs)
    (hb : Built sym s₀.proc.trapframe s₀.mem t₀.free.toFinset (span ustack 256) root k t sz)
    (hsz : sz.toNat = 4096 * (v + 1)) (hg : Guarded k t (pagesOf sz) v) :
    wp (launch sym sb path argv ustack root entry sz) (LaunchPost sym s₀ t₀ strs ustack path root entry sz v fs) E
      { s₀ with fs := fs, mem := k } := by
  have hU : Disjoint (region t₀.free.toFinset) (span ustack 256) :=
    h₀.ustack_apart.mono_left (region_mono (Pt.free_subset_pages _ _ _))
  have hbase : sz - BitVec.ofNat 64 (USERSTACK * PGSIZE) = BitVec.ofNat 64 (4096 * v) := by
    have hle := hb.size_le
    apply BitVec.eq_of_toNat_eq
    rw [BitVec.toNat_sub_of_le (by rw [BitVec.le_def, hsz]; exact Nat.le_mul_of_pos_right 4096 (Nat.succ_pos v)), hsz,
      show (BitVec.ofNat 64 (USERSTACK * PGSIZE)).toNat = 4096 from rfl, BitVec.toNat_ofNat]
    omega
  unfold launch
  rw [hbase]
  refine (pushStack_wp (s := { s₀ with fs := fs, mem := k }) h₀.fits hU h₀.args h₀.few hsz hb hg.toStack).bind ?_
  rintro r _ ⟨m, rfl, hb', hmap, hr⟩
  cases r with
  | none =>
    refine (Undoable.bad_closed (s := { s₀ with fs := fs, mem := ⟨m, k.freelist⟩ }) (Or.inr ⟨t, hb'⟩) h₀.fits).bind ?_
    rintro _ _ ⟨k', rfl, hk'⟩
    exact Or.inl ⟨rfl, hr, k', rfl, hk'⟩
  | some r =>
    obtain ⟨argc, sp⟩ := r
    obtain ⟨rfl, hst⟩ := hr
    have hg' : Guarded ⟨m, k.freelist⟩ t (pagesOf sz) v := by
      refine ⟨hg.toStack.congr hmap, ?_⟩
      change lookup m t (v - 1) &&& PTE_U = 0
      rw [hmap]
      exact hg.guard
    have hP : leafPage ⟨m, k.freelist⟩ t v = leafPage k t v := congrArg PTE2PA (hmap v)
    obtain ⟨ha1, hepc, hsp⟩ := setTrapframe_load m s₀.proc.trapframe entry sp
    obtain ⟨k', l, hrun, hc⟩ := Built.commits (s := { s₀ with fs := fs, mem := ⟨m, k.freelist⟩ }) h₀ hb'
      (setTrapframe_frame m s₀.proc.trapframe entry sp) ha1 hepc hsp hg' hsz (hP ▸ hst)
    have hroom : argRoom strs ≤ 4096 := by
      have h₁ := hst.sp_eq
      have h₂ := hst.low
      unfold argRoom
      omega
    refine (commit_wp (s := { s₀ with fs := fs, mem := ⟨m, k.freelist⟩ })
      (Q := fun _ s' => s' = { s₀ with fs := fs, mem := k', proc := s₀.proc.become path root sz }) hrun rfl).bind ?_
    rintro _ _ rfl
    exact Or.inr ⟨rfl, hroom, k', { t with free := l }, sp, rfl, hc⟩

end Xv6Boot.Kernel.Exec
