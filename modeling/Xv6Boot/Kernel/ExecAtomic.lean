import Xv6Boot.Kernel.ExecRun
import Xv6Boot.Kernel.FsPath

/-! # `exec` succeeds or changes nothing

The two outcomes of a call, and the stack that a program finds when it starts.
-/

namespace Xv6Boot.Kernel.Exec
open ByteMemory Pages Program
open Xv6Boot.Kernel.Fs (Superblock Ip Layout Good Rows Tree Walked nodes)

variable {sym : Symbols} {sb : Superblock} {F : Set ℕ} {E : String → Prop} {s₀ s s' : Machine} {root ustack : Addr}
  {t₀ t : Pt} {k : Kmem} {sz entry sp : BitVec 64} {v : ℕ} {path : List Byte} {argv : List Addr}
  {strs : List (List Byte)} {fs : Fs.State} {n : ℕ}

theorem exec_wp (h₀ : Start sym sb F s₀ t₀ argv ustack strs) (hE : s₀.fs.Scarce → E "iget: no inodes") (path : List Byte) :
    wp (exec sym sb path argv ustack) (fun r s' => ∃ fs, Walked sb F s₀.fs fs [] ∧
      ((r = -1 ∧ ∃ k, s' = { s₀ with fs := fs, mem := k } ∧ Freed s₀.mem t₀.free.toFinset (span ustack 256) k) ∨
        (r = strs.length ∧ ∃ root sz entry sp v k t,
          s' = { s₀ with fs := fs, mem := k, proc := s₀.proc.become path root sz } ∧
          Committed sym s₀ t₀ strs root sz entry sp v k t))) E s₀ := by
  unfold exec
  refine (prepare_wp h₀ hE path).bind ?_
  rintro r _ ⟨fs, k, rfl, hw, hr⟩
  cases r with
  | none => exact ⟨fs, hw, Or.inl ⟨rfl, k, rfl, hr⟩⟩
  | some r =>
    obtain ⟨root, entry, sz⟩ := r
    obtain ⟨t, v, hb, hsz, hg⟩ := hr
    refine (launch_wp h₀ hb hsz hg).mono ?_
    rintro r s' (⟨rfl, -, k', rfl, hk'⟩ | ⟨rfl, -, k', t', sp, rfl, hc⟩)
    · exact ⟨fs, hw, Or.inl ⟨rfl, k', rfl, hk'⟩⟩
    · exact ⟨fs, hw, Or.inr ⟨rfl, root, sz, entry, sp, v, k', t', rfl, hc⟩⟩

theorem exec_of_prepare (h₀ : Start sym sb F s₀ t₀ argv ustack strs)
    (hprep : prepare sym sb path s₀ = .ok (some (root, entry, sz), s)) :
    ∃ r s', exec sym sb path argv ustack s₀ = .ok (r, s') ∧ (r = -1 ↔ PGSIZE < argRoom strs) := by
  obtain ⟨fs, k, rfl, -, t, v, hb, hsz, hg⟩ := (prepare_wp (E := fun _ => True) h₀ (fun _ => trivial) path).of_ok hprep
  have hlaunch : wp (launch sym sb path argv ustack root entry sz)
      (LaunchPost sym s₀ t₀ strs ustack path root entry sz v fs) (fun _ => False) { s₀ with fs := fs, mem := k } :=
    launch_wp h₀ hb hsz hg
  obtain ⟨r, s', hrun, hpost⟩ := hlaunch.exists_ok
  refine ⟨r, s', ?_, ?_⟩
  · unfold exec
    exact (bind_of_ok hprep).trans hrun
  · rcases hpost with ⟨rfl, hroom, -⟩ | ⟨rfl, hroom, -⟩
    · exact iff_of_true rfl hroom
    · exact iff_of_false (by omega) (Nat.not_lt.mpr hroom)

/-! ## All or nothing -/

/-- The process, its page table, its memory and its trap frame are as they were, and the same pages are free. -/
structure Unchanged (sym : Symbols) (s₀ : Machine) (t₀ : Pt) (s' : Machine) : Prop where
  proc : s'.proc = s₀.proc
  image : ∃ l, l.toFinset = t₀.free.toFinset ∧
    Image sym s₀.proc.trapframe s₀.proc.pagetable s'.mem { t₀ with free := l } (pagesOf s₀.proc.sz) ∧
    ∀ w, lookup s'.mem.mem { t₀ with free := l } w = lookup s₀.mem.mem t₀ w
  memory : ∀ w < pagesOf s₀.proc.sz, ∀ j < PGSIZE,
    s'.mem.mem (off (leafPage s₀.mem t₀ w) j) = s₀.mem.mem (off (leafPage s₀.mem t₀ w) j)
  trapframe : ∀ j < PGSIZE, s'.mem.mem (off s₀.proc.trapframe j) = s₀.mem.mem (off s₀.proc.trapframe j)

/-- The leaves of the new page table are the pages below `p->sz` and the two at the top, which are not the user's; the last
below `p->sz` is the stack, and the one under it is not the user's either. The pages of the old one are free. -/
structure Replaced (sym : Symbols) (s₀ : Machine) (t₀ : Pt) (s' : Machine) (t : Pt) : Prop where
  image : Image sym s₀.proc.trapframe s'.proc.pagetable s'.mem t (pagesOf s'.proc.sz)
  leaves : ∀ w < vpn TRAPFRAME, IsLeaf (lookup s'.mem.mem t w) ↔ w < pagesOf s'.proc.sz
  high : ∀ w, vpn TRAPFRAME ≤ w → ¬ UserPte (lookup s'.mem.mem t w)
  nodes : ∀ a ∈ t₀.dom, t₀.addr a ∈ t.free
  pages : ∀ w < pagesOf s₀.proc.sz, leafPage s₀.mem t₀ w ∈ t.free
  total : t.pages s'.mem (pagesOf s'.proc.sz) = t₀.pages s₀.mem (pagesOf s₀.proc.sz)
  stack : ∃ v, s'.proc.sz.toNat = 4096 * (v + 1) ∧ Guarded s'.mem t (pagesOf s'.proc.sz) v

section Outcomes
variable (h₀ : Start sym sb F s₀ t₀ argv ustack strs)
include h₀

theorem Start.page_apart {q : Addr} (hq : q ∈ t₀.pages s₀.mem (pagesOf s₀.proc.sz)) (hn : q ∉ t₀.free) :
    Disjoint (page q) (region t₀.free.toFinset ∪ span ustack 256) := by
  refine Set.disjoint_union_right.mpr ⟨?_, h₀.ustack_apart.mono_left (page_subset_region hq)⟩
  refine page_disjoint_region (fun p hp => ?_) (h₀.image.isPage_of_mem hq).aligned fun hin => hn (List.mem_toFinset.mp hin)
  exact (h₀.image.isPage _ (Pt.free_mem_own (List.mem_toFinset.mp hp))).aligned

theorem Start.unchanged (hk : Freed s₀.mem t₀.free.toFinset (span ustack 256) k) :
    Unchanged sym s₀ t₀ { s₀ with fs := fs, mem := k } := by
  obtain ⟨l, hpool, hl, hf⟩ := hk
  have hmem : ∀ q, q ∈ l ↔ q ∈ t₀.free := fun q => by rw [← List.mem_toFinset, hl, List.mem_toFinset]
  have hleaf : ∀ w < pagesOf s₀.proc.sz, leafPage s₀.mem t₀ w ∉ t₀.free := fun w hw hin =>
    h₀.image.not_own w hw (Pt.free_mem_own hin)
  have hnode : ∀ a ∈ t₀.dom, Disjoint (page (t₀.addr a)) (region t₀.free.toFinset ∪ span ustack 256) := fun a ha =>
    h₀.page_apart (Pt.own_subset_pages _ _ _ (Pt.addr_mem_own ha)) (h₀.image.kpt.fresh a ha)
  obtain ⟨himage, hmap⟩ := h₀.image.transfer hf hnode hpool
    (fun q hq => h₀.image.isPage q (Pt.free_mem_own ((hmem q).mp hq)))
    (fun a ha hin => h₀.image.kpt.fresh a ha ((hmem _).mp hin)) fun w hw hin => hleaf w hw ((hmem _).mp hin)
  refine ⟨rfl, ⟨l, hl, himage, hmap⟩, fun w hw j hj => ?_, fun j hj => ?_⟩
  · exact hf.byte (h₀.page_apart (Pt.mem_pages.mpr (Or.inr ⟨w, hw, rfl⟩)) (hleaf w hw)) hj (by unfold PGSIZE at hj; omega)
  · refine hf.byte (Set.disjoint_union_right.mpr ⟨?_, h₀.frames_apart⟩) hj (by unfold PGSIZE at hj; omega)
    exact (h₀.trapframe_apart.mono_left (region_mono (Pt.free_subset_pages _ _ _))).symm

end Outcomes

theorem Image.leaf_iff {trapframe : Addr} {w : ℕ} (h : Image sym trapframe root k t n) (hw : w < vpn TRAPFRAME) :
    IsLeaf (lookup k.mem t w) ↔ w < n := by
  refine ⟨fun hleaf => ?_, h.leaf w⟩
  by_contra hge
  exact hleaf.1 (h.unmapped w (by omega) hw)

theorem Committed.replaced (hc : Committed sym s₀ t₀ strs root sz entry sp v k t) :
    Replaced sym s₀ t₀ { s₀ with fs := fs, mem := k, proc := s₀.proc.become path root sz } t where
  image := hc.image
  leaves _ hw := Image.leaf_iff hc.image hw
  high _ hw hu := absurd (hc.image.user_lt hu) (Nat.not_lt.mpr (hc.image.le_trapframe.trans hw))
  nodes := hc.nodes
  pages := hc.leaves
  total := hc.pages
  stack := ⟨v, hc.size, hc.guarded⟩

/-- **`exec` is atomic.** Only a walk that finds no place in the inode table can stop it, and then at most one was left. -/
theorem exec_atomic (h₀ : Start sym sb F s₀ t₀ argv ustack strs) (path : List Byte) :
    wp (exec sym sb path argv ustack) (fun r s' => s'.ops = s₀.ops ∧ Good sb F s'.fs ∧
      ((r = -1 ∧ Unchanged sym s₀ t₀ s') ∨ (r = strs.length ∧ ∃ t, Replaced sym s₀ t₀ s' t)))
      (fun msg => msg = "iget: no inodes" ∧ s₀.fs.Scarce) s₀ := by
  refine (exec_wp h₀ (fun h => ⟨rfl, h⟩) path).mono ?_
  rintro r s' ⟨fs, hw, ⟨rfl, k, rfl, hk⟩ | ⟨rfl, root, sz, entry, sp, v, k, t, rfl, hc⟩⟩
  · exact ⟨rfl, hw.good, Or.inl ⟨rfl, h₀.unchanged hk⟩⟩
  · exact ⟨rfl, hw.good, Or.inr ⟨rfl, t, hc.replaced⟩⟩

/-! ## A header and seven free pages

A file that is an ELF header without program headers is loaded with three pages for the tables at the top, two for those
at the bottom and two for the stack.
-/

theorem wp_onFs_ok {α : Type} {m : Fs.M α} {Q : α → Machine → Prop} {a : α} (hm : m s.fs = .ok (a, fs))
    (hq : Q a { s with fs := fs }) : wp (onFs m) Q E s := by
  rw [wp, onFs, hm]
  exact hq

theorem wp_true {σ α : Type} {m : Prog σ α} {Q : α → σ → Prop} {s : σ} (hq : ∀ a s', Q a s') : wp m Q (fun _ => True) s := by
  unfold wp
  split
  · exact hq _ _
  · trivial

theorem closeFile_mem (ip : Ip) : wp (closeFile sb ip) (fun _ s' => s'.mem = s.mem) (fun _ => True) s :=
  wp.bind (wp_onFs (Q := fun _ s' => s'.mem = s.mem) (wp_true fun _ _ => rfl)) fun _ _ h => h

theorem loadProgram_header {ip : Ip} {elf : List Byte} {p : Addr} {l : List Addr} (trapframe : Addr)
    (hread : Fs.readi sb ip (fun _ => true) 0 sizeofElfhdr s.fs = .ok ((sizeofElfhdr.toNat, elf), fs))
    (hmagic : magic elf = ELF_MAGIC) (hnum : phnum elf = 0) (hpool : Pool s.mem.mem s.mem.freelist (p :: l))
    (hpages : ∀ q ∈ p :: l, IsPage sym q) (hlen : 6 ≤ l.length) :
    wp (loadProgram sym sb ip trapframe) (fun r _ => r.isSome) (fun _ => True) s := by
  have hcard : (topNodes ∪ firstNodes).card = 5 := by decide
  obtain ⟨k, t, f, hrun, hspace, h0⟩ := procPagetable_enough (S := topNodes ∪ firstNodes) (k := 2) hpool hpages
    Finset.subset_union_left (by omega) trapframe
  have hp : p ≠ 0 := (kalloc_cons hpool).2.1
  unfold loadProgram
  rw [wp_bind]
  refine wp_onFs_ok hread ?_
  dsimp only
  rw [if_neg (not_not.mpr rfl), if_neg (not_not.mpr hmagic), wp_bind]
  refine wp_onMem hrun ?_
  rw [if_neg hp, hnum, show (0 : BitVec 16).toNat = 0 from rfl, loadSegments, wp_bind, wp_pure, if_pos rfl]
  refine (closeFile_mem ip).bind fun _ s₁ hs₁ => ?_
  have hv : vpn 0 = 0 := by decide
  obtain ⟨k', hloop⟩ : ∃ k', uvmallocLoop sym p 0 8192 PTE_W 4 0 k = some (8192, k') :=
    hspace.uvmallocLoop (a := 0) (n := 2) (k := 0) rfl (by decide) (by decide)
    (hv ▸ (firstNodes_cover (by decide)).mono Finset.subset_union_right)
    (hv ▸ fun x hx hx' => h0 x hx (hx'.trans (by decide))) (by decide) 0 PTE_W
  have hround : PGROUNDUP 0 = 0 := by decide
  have hnew : (0 : BitVec 64) + BitVec.ofNat 64 ((USERSTACK + 1) * PGSIZE) = 8192 := by decide
  have halloc : uvmalloc sym p 0 8192 PTE_W s₁.mem = some (8192, k') := by
    rw [uvmalloc, if_neg (by decide), hround, show (8192 : BitVec 64).toNat / PGSIZE + 2 = 4 by decide, hs₁]
    exact hloop
  rw [hround]
  unfold allocStack
  rw [hnew]
  simp only [wp_bind]
  refine wp_onMem halloc ?_
  rw [if_neg (by decide), wp_bind]
  exact wp_true fun _ _ => rfl

/-! ## A process with no memory, after `kinit`

Its trap frame, `ustack` and the arguments are on pages of the kernel.
-/

def sampleFrame : Addr := 0x81010000#64
def sampleUstack : Addr := 0x81011000#64
def sampleArgv : List Addr := [0x81012000#64, 0x81013000#64]

/-- `a` and `bc`. -/
def sampleStrs : List (List Byte) := [[97], [98, 99]]

def sampleMem : Mem := fun a =>
  if a = 0x81012000#64 then 97 else if a = 0x81013000#64 then 98 else if a = 0x81013001#64 then 99 else 0

def sampleMachine (fs : Fs.State) (k : Kmem) : Machine :=
  ⟨fs, k, 0, 0x88fff000#64, 0, sampleFrame, fun _ => 0, ⟨0, Fs.NINODE_pos⟩⟩

theorem below_apart {q : Addr} {L : Finset Addr} (hL : ∀ p ∈ L, IsPage linked p) (hq : Aligned q)
    (hlt : q < linked.endAddr) :
    Disjoint (page q) (region L) :=
  page_disjoint_region (fun p hp => (hL p hp).aligned) hq fun hin => absurd hlt (BitVec.not_lt.mpr (hL q hin).ge_end)

theorem sampleUstack_page : span sampleUstack 256 ⊆ page sampleUstack := span_mono _ (by decide)

theorem exists_start (hl : Layout sb) (hg : Good sb F fs) (hr : Rows sb (nodes sb fs.cache))
    (ht : Tree sb fs ⟨0, by decide⟩) (hcwd : 0 < (fs.inode ⟨0, by decide⟩).ref) :
    ∃ k t₀, Start linked sb F (sampleMachine fs k) t₀ sampleArgv sampleUstack sampleStrs ∧ 7 ≤ t₀.free.length := by
  obtain ⟨k₁, -, hpool, hf₁⟩ := kinit_pool linked_fits ⟨sampleMem, 0⟩ rfl
  have hpages : ∀ q ∈ freePages linked (freeCount linked), IsPage linked q := by
    intro q hq
    obtain ⟨i, hi, rfl⟩ := mem_freePages.mp hq
    exact freePage_isPage linked_fits hi
  have hcons : freePages linked (freeCount linked) = 0x88fff000#64 :: freePages linked 32742 := by
    rw [show freeCount linked = 32742 + 1 by decide, freePages_succ]
    congr 1
  rw [hcons] at hpool hpages hf₁
  obtain ⟨k, t', f, hrun, hspace, -⟩ := procPagetable_enough (S := topNodes) (k := 32740) hpool hpages subset_rfl
    (by rw [freePages_length]; decide) sampleFrame
  obtain ⟨r, k', hrun', hf, hr'⟩ := procPagetable_spec linked_fits hpool hpages sampleFrame
  rw [hrun] at hrun'
  obtain ⟨rfl, rfl⟩ := Prod.mk.inj (Option.some.inj hrun')
  rcases hr' with ⟨h0, _⟩ | ⟨_, t, himage, hown⟩
  · exact absurd h0 (by decide)
  rw [← show pagesOf 0 = 0 from rfl] at himage
  have hpt : t.pages k (pagesOf 0) = _ := (Pt.pages_zero k t).trans hown
  have hpg : ∀ q ∈ t.pages k (pagesOf 0), IsPage linked q := fun q hq => hpages q (List.mem_toFinset.mp (hpt ▸ hq))
  have hfree : ∀ q ∈ t.free.toFinset, IsPage linked q := fun q hq =>
    hpg q (Pt.free_subset_pages k t _ hq)
  have hlen : 7 ≤ t.free.length := by
    rw [chain_unique himage.kpt.pool.chain hspace.kpt.pool.chain]
    have hroom := hspace.room
    have hcard := Finset.card_le_card hspace.bound
    omega
  -- what was in the kernel's pages is still there
  have hbyte : ∀ {q : Addr}, Aligned q → q < linked.endAddr → ∀ j < PGSIZE, k.mem (off q j) = sampleMem (off q j) := by
    intro q hq hlt j hj
    have hd := below_apart (fun p hp => hpages p (List.mem_toFinset.mp hp)) hq hlt
    have hj' : j < 2 ^ 64 := hj.trans (by decide)
    rw [hf.byte hd hj hj']
    refine hf₁.byte ?_ hj hj'
    exact Set.disjoint_iUnion₂_right.mpr fun p hp =>
      hd.mono_right (page_subset_region (List.mem_toFinset.mpr hp))
  have harg : ∀ {q : Addr}, Aligned q → q < linked.endAddr → q ≠ sampleUstack →
      Disjoint (page q) (region t.free.toFinset ∪ span sampleUstack 256) := fun hq hlt hne =>
    Set.disjoint_union_right.mpr ⟨below_apart hfree hq hlt, (Pages.page_disjoint hq (q := sampleUstack) rfl
      hne).mono_right sampleUstack_page⟩
  refine ⟨k, t, ⟨linked_fits, hl, hg, hr, ht, hcwd, himage, ?_, ?_, ?_, by decide, ?_⟩, hlen⟩
  · exact (below_apart (q := sampleFrame) hpg rfl (by decide)).symm
  · exact (below_apart (q := sampleUstack) hpg rfl (by decide)).symm.mono_right sampleUstack_page
  · exact (Pages.page_disjoint (p := sampleFrame) (q := sampleUstack) rfl rfl (by decide)).mono_right sampleUstack_page
  · refine .cons ⟨⟨fun i hi => ?_, ?_, by decide⟩, harg rfl (by decide) (by decide)⟩
      (.cons ⟨⟨fun i hi => ?_, ?_, by decide⟩, harg rfl (by decide) (by decide)⟩ .nil)
    · change k.mem _ = _ ∧ _
      rw [hbyte (q := 0x81012000#64) rfl (by decide) i (hi.trans (by decide))]
      revert i
      decide
    · exact (hbyte (q := 0x81012000#64) rfl (by decide) 1 (by decide)).trans (by decide)
    · change k.mem _ = _ ∧ _
      rw [hbyte (q := 0x81013000#64) rfl (by decide) i (hi.trans (by decide))]
      revert i
      decide
    · exact (hbyte (q := 0x81013000#64) rfl (by decide) 2 (by decide)).trans (by decide)

theorem sample_prepare : ∃ k t₀,
    Start linked Fs.treeSb ∅ (sampleMachine Fs.treeState k) t₀ sampleArgv sampleUstack sampleStrs ∧
    ∃ root entry sz s₁, prepare linked Fs.treeSb [97] (sampleMachine Fs.treeState k) = .ok (some (root, entry, sz), s₁) := by
  obtain ⟨k, t₀, h₀, hlen⟩ :=
    exists_start Fs.treeSb_layout Fs.tree_good Fs.Buffered.tree_rows Fs.Buffered.tree_tree (by decide)
  have hroom : ¬ Fs.treeState.Scarce := by
    rintro ⟨ip, h⟩
    by_cases hip : ip = ⟨1, by decide⟩
    · exact h ⟨2, by decide⟩ (by rw [hip]; decide) rfl
    · exact h ⟨1, by decide⟩ (Ne.symm hip) rfl
  obtain ⟨fs₁, fs₂, fs₃, elf, hnamei, hilock, hread, hmagic, hnum⟩ : ∃ fs₁ fs₂ fs₃ elf,
      Fs.namei Fs.treeSb [97] ⟨0, by decide⟩ Fs.treeState = .ok (some ⟨1, by decide⟩, fs₁) ∧
      Fs.ilock Fs.treeSb ⟨1, by decide⟩ fs₁ = .ok ((), fs₂) ∧
      Fs.readi Fs.treeSb ⟨1, by decide⟩ (fun _ => true) 0 sizeofElfhdr fs₂ = .ok ((sizeofElfhdr.toNat, elf), fs₃) ∧
      magic elf = ELF_MAGIC ∧ phnum elf = 0 := ⟨_, _, _, _, rfl, rfl, rfl, by decide, by decide⟩
  have hsome : wp (prepare linked Fs.treeSb [97]) (fun r _ => r.isSome) (fun _ => True) (sampleMachine Fs.treeState k) := by
    obtain ⟨p, l, hfree⟩ := List.exists_cons_of_length_pos (show 0 < t₀.free.length by omega)
    have hpool := h₀.image.kpt.pool
    rw [hfree] at hpool hlen
    unfold prepare
    rw [wp_bind]
    change wp (get >>= _) _ _ { sampleMachine Fs.treeState k with ops := 1 }
    rw [wp_bind, wp_get, wp_bind]
    refine wp_onFs_ok hnamei ?_
    rw [wp_bind]
    refine wp_onFs_ok hilock ?_
    refine loadProgram_header _ hread hmagic hnum hpool (fun q hq => h₀.image.isPage q ?_) (Nat.le_of_succ_le_succ hlen)
    exact Pt.free_mem_own (hfree ▸ hq)
  have hwp := prepare_wp (E := fun _ => False) h₀ (fun h => hroom h) [97]
  obtain ⟨r, s₁, hrun, -⟩ := hwp.exists_ok
  obtain ⟨⟨root, entry, sz⟩, rfl⟩ := Option.isSome_iff_exists.mp (hsome.of_ok hrun)
  exact ⟨k, t₀, h₀, root, entry, sz, s₁, hrun⟩

theorem sampleStrs_room : ¬ PGSIZE < argRoom sampleStrs := by decide

theorem sample_exec_atomic : ∃ k t₀ s' t,
    Start linked Fs.treeSb ∅ (sampleMachine Fs.treeState k) t₀ sampleArgv sampleUstack sampleStrs ∧
    exec linked Fs.treeSb [97] sampleArgv sampleUstack (sampleMachine Fs.treeState k) = .ok (2, s') ∧
    s'.ops = 0 ∧ Good Fs.treeSb ∅ s'.fs ∧ Replaced linked (sampleMachine Fs.treeState k) t₀ s' t := by
  obtain ⟨k, t₀, h₀, root, entry, sz, s₁, hprep⟩ := sample_prepare
  obtain ⟨r, s', hrun, hr⟩ := exec_of_prepare h₀ hprep
  obtain ⟨hops, hgood, ⟨h1, -⟩ | ⟨rfl, t, ht⟩⟩ := (exec_atomic h₀ [97]).of_ok hrun
  · exact absurd (hr.mp h1) sampleStrs_room
  · exact ⟨k, t₀, s', t, h₀, hrun, hops, hgood, ht⟩

/-! ## One place left in the inode table

The root has a directory `d` with an empty file `x`, and 48 files are open that have no name any more.
-/

def crowdedSb : Superblock := ⟨9, 2, 52, 2, 6⟩

def crowdedDir (nlink : BitVec 16) (b : BitVec 32) : Fs.Dinode :=
  { Fs.Dinode.zero with type := 1, nlink := nlink, size := 48, addrs := fun i => if i = 0 then b else 0 }

def orphan : Fs.Dinode := { Fs.Dinode.zero with type := 2 }

def orphans : Fs.Data := fun i => Fs.putDinode (fun _ => 0) 0 orphan (i % 64)

def crowdedDisk (b : ℕ) : Fs.Data :=
  if b = 2 then Fs.putDinode (Fs.putDinode (Fs.putDinode orphans 0 Fs.Dinode.zero) 1 (crowdedDir 2 7)) 2 (crowdedDir 1 8)
  else if b = 5 then Fs.putDinode orphans 3 Fs.emptyFile
  else if b < 6 then orphans
  else if b = 6 then fun i => if i = 0 then 255 else if i = 1 then 1 else 0
  else if b = 7 then fun i => [1, 0, 46, 0, 0, 0, 0, 0, 0, 0, 0, 0, 0, 0, 0, 0, 1, 0, 46, 46, 0, 0, 0, 0, 0, 0, 0, 0, 0, 0,
    0, 0, 2, 0, 100].getD i 0
  else fun i => [2, 0, 46, 0, 0, 0, 0, 0, 0, 0, 0, 0, 0, 0, 0, 0, 1, 0, 46, 46, 0, 0, 0, 0, 0, 0, 0, 0, 0, 0,
    0, 0, 51, 0, 120].getD i 0

def crowdedInum (ip : Ip) : ℕ := if ip.val = 0 then 1 else ip.val + 2

def crowdedState : Fs.State where
  cache := crowdedDisk
  store := crowdedDisk
  log := []
  inode ip := if ip.val = 49 then ⟨0, 0, false, Fs.Dinode.zero⟩
    else ⟨crowdedInum ip, 1, true, Fs.dinode crowdedSb crowdedDisk (crowdedInum ip)⟩

theorem crowdedSb_layout : Layout crowdedSb := by constructor <;> decide

theorem crowded_type : ∀ n < 52, (Fs.dinode crowdedSb crowdedDisk n).type = 0 ↔ n = 0 := by decide

theorem crowdedInum_lt {ip : Ip} (h : ip.val ≠ 49) : crowdedInum ip < 51 ∧ crowdedInum ip ≠ 0 := by
  have : ip.val < 50 := ip.isLt
  unfold crowdedInum
  split <;> omega

theorem crowded_held {ip : Ip} (hr : 0 < (crowdedState.inode ip).ref) : ip.val ≠ 49 ∧
    crowdedState.inode ip = ⟨crowdedInum ip, 1, true, Fs.dinode crowdedSb crowdedDisk (crowdedInum ip)⟩ := by
  have hne : ip.val ≠ 49 := fun h => by
    rw [show crowdedState.inode ip = ⟨0, 0, false, Fs.Dinode.zero⟩ from if_pos h] at hr
    exact lt_irrefl _ hr
  exact ⟨hne, if_neg hne⟩

theorem crowded_good : Good crowdedSb ∅ crowdedState where
  lt ip hr := by
    obtain ⟨hne, he⟩ := crowded_held hr
    rw [he]
    exact (crowdedInum_lt hne).1.trans (by decide)
  nonneg ip := by
    by_cases h : ip.val = 49
    · rw [show crowdedState.inode ip = ⟨0, 0, false, Fs.Dinode.zero⟩ from if_pos h]
    · rw [show crowdedState.inode ip = _ from if_neg h]
      exact Int.one_nonneg
  distinct ip jp hi hj he := by
    rw [(crowded_held hi).2, (crowded_held hj).2] at he
    have he' : crowdedInum ip = crowdedInum jp := he
    refine Fin.ext ?_
    unfold crowdedInum at he'
    split at he' <;> split at he' <;> omega
  copy ip hr _ := by
    rw [(crowded_held hr).2]
    rfl
  live ip hr _ := by
    obtain ⟨hne, he⟩ := crowded_held hr
    obtain ⟨hlt, h0⟩ := crowdedInum_lt hne
    rw [he]
    exact fun hz => h0 ((crowded_type _ (by omega)).mp hz)
  owned := Fs.firstBlocks_owned (f := fun n => if n = 1 ∨ n = 2 then n + 6 else 0) (by decide) (by decide) (by decide)
    (by decide) (by decide)
  filled := Fs.firstBlocks_filled (by decide)

theorem crowded_dir (hn : (nodes crowdedSb crowdedDisk n).type = Fs.T_DIR) : n = 1 ∨ n = 2 := by
  have hdir : ∀ n < 52, (nodes crowdedSb crowdedDisk n).type = Fs.T_DIR → n = 1 ∨ n = 2 := by decide
  by_cases hlt : n < 52
  · exact hdir n hlt hn
  · rw [Fs.nodes_of_free fun ha => hlt ha.1] at hn
    cases hn

theorem crowded_rows : Rows crowdedSb (nodes crowdedSb crowdedState.cache) := by
  intro n hn
  rcases crowded_dir hn with rfl | rfl <;> decide

theorem crowded_tree : Tree crowdedSb crowdedState ⟨0, by decide⟩ := by
  have hent : ∀ n, n = 1 ∨ n = 2 → ∀ j < (nodes crowdedSb crowdedDisk n).entries,
      Fs.Stays crowdedSb crowdedState ((nodes crowdedSb crowdedDisk n).dirent j).inum.toNat := by
    rintro n (rfl | rfl) j hj
    · have hall : ∀ j < (nodes crowdedSb crowdedDisk 1).entries,
          (nodes crowdedSb crowdedDisk ((nodes crowdedSb crowdedDisk 1).dirent j).inum.toNat).type ≠ 0 ∧
          (nodes crowdedSb crowdedDisk ((nodes crowdedSb crowdedDisk 1).dirent j).inum.toNat).nlink ≠ 0 := by decide
      exact ⟨(hall j hj).1, Or.inl (hall j hj).2⟩
    · have hall : ∀ j < (nodes crowdedSb crowdedDisk 2).entries,
          (nodes crowdedSb crowdedDisk ((nodes crowdedSb crowdedDisk 2).dirent j).inum.toNat).type ≠ 0 ∧
          (nodes crowdedSb crowdedDisk ((nodes crowdedSb crowdedDisk 2).dirent j).inum.toNat).nlink ≠ 0 := by decide
      exact ⟨(hall j hj).1, Or.inl (hall j hj).2⟩
  have hroot := hent 1 (Or.inl rfl) 0 (by decide)
  have hdot : ((nodes crowdedSb crowdedDisk 1).dirent 0).inum.toNat = 1 := by decide
  rw [hdot] at hroot
  exact ⟨hroot, hroot, fun n j hn hj _ => hent n (crowded_dir hn) j hj⟩

theorem crowded_exec_stops : ∃ k t₀,
    Start linked crowdedSb ∅ (sampleMachine crowdedState k) t₀ sampleArgv sampleUstack sampleStrs ∧
    (crowdedState.inode ⟨49, by decide⟩).ref = 0 ∧
    exec linked crowdedSb [100, 47, 120] sampleArgv sampleUstack (sampleMachine crowdedState k) =
      .error "iget: no inodes" := by
  obtain ⟨k, t₀, h₀, -⟩ := exists_start crowdedSb_layout crowded_good crowded_rows crowded_tree (by decide)
  refine ⟨k, t₀, h₀, by decide, ?_⟩
  have hnamei : Fs.namei crowdedSb [100, 47, 120] ⟨0, by decide⟩ crowdedState = .error "iget: no inodes" := by rfl
  refine wp.eq_error ?_
  unfold exec prepare
  rw [wp_bind, wp_bind]
  change wp (get >>= _) _ _ { sampleMachine crowdedState k with ops := 1 }
  rw [wp_bind, wp_get, wp_bind]
  exact wp_onFs (wp_of_error hnamei rfl)

end Xv6Boot.Kernel.Exec
