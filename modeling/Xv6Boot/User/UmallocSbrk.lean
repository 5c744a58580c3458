import Xv6Boot.Kernel.Sbrk
import Xv6Boot.User.UmallocRuns

/-! # `malloc` on top of the kernel's `sbrk`

The calls of `umalloc.c` again, with `sys_sbrk` and `growproc` in the place of an `sbrk` that does what it is asked for.
`heap.top` is `p->sz`. A program may have called `sbrk` itself, so that free blocks need not fill its memory.
-/

namespace Xv6Boot.User.Umalloc
open Function ByteMemory Pages FreeList Kernel

/-! ## The code -/

/-- `(char*)-1` -/
def NOMEM : ℕ := 2 ^ 64 - 1

namespace Process
variable (sym : Symbols) (root : Addr)

def sbrk (n : BitVec 32) (P : Process Kmem) : Option (Process Kmem × ℕ) := do
  let addr := P.heap.top
  let r ← growproc sym root (BitVec.ofNat 64 addr) n P.mem
  let P : Process Kmem := ⟨{ P.heap with top := r.2.1.toNat }, r.2.2⟩
  if r.1 < 0 then some (P, NOMEM) else some (P, addr)

/-- A header can be written where it is in the pages of the process. -/
def brk : Brk Kmem where
  sbrk n P := (P.sbrk sym root n).map fun r => (r.1, if r.2 = NOMEM then none else some r.2)
  mapped P a := decide (a + HEADER ≤ 4096 * pagesOf (BitVec.ofNat 64 P.heap.top))

def malloc (base : ℕ) (nbytes : BitVec 32) (P : Process Kmem) : Option (Process Kmem × ℕ) :=
  (brk sym root).malloc 0 base nbytes P

end Process

/-! ## The free list -/

/-- The free blocks, each with its size in headers, are linked and lie in the memory above the static header. -/
structure Listed (base : ℕ) (h : Heap) (bs : List (ℕ × ℕ)) : Prop extends Linked base h (bs.map Prod.fst) where
  sizes : ∀ b ∈ bs, (h.size b.1).toNat = b.2 ∧ 0 < b.2
  apart : bs.Pairwise fun x y => x.1 + HEADER * x.2 ≤ y.1
  inside : ∀ b ∈ bs, base + HEADER ≤ b.1 ∧ b.1 + HEADER * b.2 ≤ h.top

/-- Before the first call of `malloc` there is no list. -/
def FreeBlocks (base : ℕ) (h : Heap) (bs : List (ℕ × ℕ)) : Prop := (h.freep = 0 ∧ bs = []) ∨ Listed base h bs

/-- A process with its page table, its static header and the free list that earlier calls have left in its memory. -/
structure Process.Good (sym : Symbols) (root : Addr) (base : ℕ) (P : Process Kmem) : Prop where
  top_lt : P.heap.top < 2 ^ 64
  space : ∃ t, Uspace sym root P.mem t (pagesOf (BitVec.ofNat 64 P.heap.top))
  base_pos : 0 < base
  base_le : base + HEADER ≤ P.heap.top
  list : ∃ bs, FreeBlocks base P.heap bs

/-- A pointer other than 0 is to `nbytes` bytes of the process's memory; 0 means that nothing has happened. -/
structure Granted (base : ℕ) (nbytes : BitVec 32) (P P' : Process Kmem) (p : ℕ) : Prop where
  inside : p ≠ 0 → p + nbytes.toNat ≤ P'.heap.top
  unchanged : p = 0 → P'.heap.top = P.heap.top ∧ ∀ bs, FreeBlocks base P.heap bs → FreeBlocks base P'.heap bs

section List
variable {base n : ℕ} {h : Heap} {bs : List (ℕ × ℕ)}

theorem length_of_apart {a top : ℕ} (hsize : ∀ b ∈ bs, 0 < b.2)
    (hapart : bs.Pairwise fun x y => x.1 + HEADER * x.2 ≤ y.1) (hin : ∀ b ∈ bs, a ≤ b.1 ∧ b.1 + HEADER * b.2 ≤ top)
    (ha : a ≤ top) : a + HEADER * bs.length ≤ top := by
  induction bs generalizing a with
  | nil => exact ha
  | cons x bs ih =>
    obtain ⟨hx, hapart⟩ := List.pairwise_cons.mp hapart
    have hxin := hin x List.mem_cons_self
    have hxpos := hsize x List.mem_cons_self
    have hrest := ih (fun b hb => hsize b (List.mem_cons_of_mem _ hb)) hapart
      (fun b hb => ⟨hx b hb, (hin b (List.mem_cons_of_mem _ hb)).2⟩) hxin.2
    rw [List.length_cons]
    unfold HEADER at *
    omega

theorem Listed.length_le (hl : Listed base h bs) (hb : base + HEADER ≤ h.top) : bs.length ≤ h.top / HEADER := by
  have := length_of_apart (fun b hb => (hl.sizes b hb).2) hl.apart hl.inside hb
  unfold HEADER at *
  omega

theorem Listed.take_inside {nbytes : BitVec 32} {q : ℕ} (prevp : ℕ) (hl : Listed base h bs)
    (hq : q ∈ base :: bs.map Prod.fst) (hfit : Heap.unitsFor nbytes ≤ h.size q) :
    (h.take (Heap.unitsFor nbytes) prevp q).2 ≠ 0 ∧
      (h.take (Heap.unitsFor nbytes) prevp q).2 + nbytes.toNat ≤ h.top ∧
      (h.take (Heap.unitsFor nbytes) prevp q).1.top = h.top := by
  have hpos := unitsFor_pos nbytes
  have hroom := le_unitsFor nbytes
  rw [BitVec.le_def] at hfit
  have hqb : q ≠ base := by
    rintro rfl
    rw [hl.base_size] at hfit
    exact absurd (hpos.trans_le hfit) (by decide)
  obtain ⟨b, hb, rfl⟩ := List.mem_map.mp ((List.mem_cons.mp hq).resolve_left hqb)
  have hin := (hl.inside b hb).2
  rw [← (hl.sizes b hb).1] at hin
  unfold Heap.take
  split
  · next he =>
    rw [← he] at hroom
    unfold HEADER at *
    exact ⟨by simp, by simp only; omega, rfl⟩
  · have hafter : ((h.setSize b.1 (h.size b.1 - Heap.unitsFor nbytes)).size b.1).toNat =
        (h.size b.1).toNat - (Heap.unitsFor nbytes).toNat := by
      rw [Heap.setSize]
      simp only [update_self]
      exact BitVec.toNat_sub_of_le hfit
    simp only [Heap.after, hafter]
    unfold HEADER at *
    exact ⟨by simp, by omega, rfl⟩

/-- A block of `nu` headers has been added at the end of memory, which is not yet on the list. -/
structure Grown (base : ℕ) (h h' : Heap) (bs : List (ℕ × ℕ)) (nu : BitVec 32) : Prop where
  list : Listed base h bs
  base_le : base + HEADER ≤ h.top
  ptr : h'.ptr = h.ptr
  freep : h'.freep = h.freep
  size : ∀ a < h.top, h'.size a = h.size a
  new : h'.size h.top = nu
  pos : 0 < nu.toNat
  top : h'.top = h.top + HEADER * nu.toNat
  lt : h'.top < HEADER * 2 ^ 32

variable {h' : Heap} {nu : BitVec 32} {p : ℕ} (hg : Grown base h h' bs nu)
include hg

theorem Grown.lt_top : ∀ a ∈ base :: bs.map Prod.fst, a < h.top := by
  have hb := hg.base_le
  intro a ha
  rcases List.mem_cons.mp ha with rfl | ha
  · unfold HEADER at hb
    omega
  · obtain ⟨b, hbs, rfl⟩ := List.mem_map.mp ha
    have := hg.list.inside b hbs
    have := (hg.list.sizes b hbs).2
    unfold HEADER at *
    omega

theorem Grown.place : ∃ p, h'.place h.top (h'.turns 0) h'.freep = some p ∧ Upto h'.ptr base (bs.map Prod.fst) p ∧
    h'.ptr p = base := by
  have hlen := hg.list.length_le hg.base_le
  refine @place_circle base _ _ h' _ _ [] ?_ ?_ hg.lt_top (by simp) ?_ ?_
  · rw [List.append_nil, hg.ptr]
    exact hg.list.circle
  · rw [List.append_nil]
    exact hg.list.sorted
  · rw [List.append_nil, hg.freep]
    exact hg.list.freep
  · rw [List.length_map, List.length_nil, Heap.turns, hg.top]
    unfold HEADER at *
    omega

theorem Grown.joinUpper (hp : h'.ptr p = base) : h'.joinUpper h.top p = h'.setPtr h.top base := by
  have hb := hg.base_le
  rw [Heap.joinUpper, if_neg, hp]
  rw [hp, Heap.after]
  unfold HEADER at *
  omega

theorem Grown.link (hu : Upto h'.ptr base (bs.map Prod.fst) p) :
    Listed base { (h'.setPtr h.top base).setPtr p h.top with freep := p } (bs ++ [(h.top, nu.toNat)]) := by
  have hl := hg.list
  have hlow := hg.lt_top
  have hplt := hlow p hu.mem
  have hbase := hlow base List.mem_cons_self
  have hother : ∀ a, a ≠ p → a ≠ h.top → ((h'.setPtr h.top base).setPtr p h.top).ptr a = h'.ptr a := by
    intro a hap hat
    simp only [Heap.setPtr]
    rw [update_of_ne hap, update_of_ne hat]
  have hmap : (bs ++ [(h.top, nu.toNat)]).map Prod.fst = bs.map Prod.fst ++ [h.top] := List.map_append
  refine ⟨⟨?_, ?_, (hg.size base hbase).trans hl.base_size, ?_⟩, ?_, ?_, ?_⟩
  · rw [hmap]
    refine (hu.congr (hl.sorted.imp fun h => h.ne) fun a ha hap => hother a hap (hlow a ha).ne).path ⟨?_, ?_⟩
    · exact update_self _ _ _
    · exact (update_of_ne hplt.ne' _ _).trans (update_self _ _ _)
  · rw [hmap, ← List.cons_append]
    refine List.pairwise_append.mpr ⟨hl.sorted, List.pairwise_singleton _ _, fun a ha b hb => ?_⟩
    rw [List.mem_singleton.mp hb]
    exact hlow a ha
  · rw [hmap, ← List.cons_append]
    exact List.mem_append_left _ hu.mem
  · intro b hb
    rcases List.mem_append.mp hb with hb | hb
    · have hlt := hlow b.1 (List.mem_cons_of_mem _ (List.mem_map_of_mem hb))
      rw [show ({ (h'.setPtr h.top base).setPtr p h.top with freep := p } : Heap).size b.1 = h.size b.1 from
        hg.size _ hlt]
      exact hl.sizes b hb
    · obtain rfl := List.mem_singleton.mp hb
      exact ⟨congrArg BitVec.toNat hg.new, hg.pos⟩
  · refine List.pairwise_append.mpr ⟨hl.apart, List.pairwise_singleton _ _, fun x hx y hy => ?_⟩
    obtain rfl := List.mem_singleton.mp hy
    exact (hl.inside x hx).2
  · intro b hb
    have htop : ({ (h'.setPtr h.top base).setPtr p h.top with freep := p } : Heap).top = _ := hg.top
    rw [htop]
    rcases List.mem_append.mp hb with hb | hb
    · have := hl.inside b hb
      exact ⟨this.1, by omega⟩
    · obtain rfl := List.mem_singleton.mp hb
      exact ⟨hg.base_le, le_rfl⟩

theorem Grown.join {bs₀ : List (ℕ × ℕ)} {n : ℕ} (hbs : bs = bs₀ ++ [(p, n)]) (hend : p + HEADER * n = h.top)
    (hp : h'.ptr p = base) :
    Listed base { ((h'.setPtr h.top base).setSize p (h'.size p + nu)).setPtr p base with freep := p }
      (bs₀ ++ [(p, n + nu.toNat)]) := by
  have hl := hg.list
  have hlow := hg.lt_top
  have hbase := hlow base List.mem_cons_self
  have hlast : (p, n) ∈ bs := hbs ▸ by simp
  have hplt := hlow p (List.mem_cons_of_mem _ (List.mem_map_of_mem hlast))
  have hmap : (bs₀ ++ [(p, n + nu.toNat)]).map Prod.fst = bs.map Prod.fst := by rw [hbs]; simp
  have hsorted := hl.sorted
  rw [hbs, List.map_append, ← List.cons_append, List.pairwise_append] at hsorted
  have hne : ∀ a ∈ base :: bs₀.map Prod.fst, a ≠ p := fun a ha => (hsorted.2.2 a ha p List.mem_cons_self).ne
  have hsub : ∀ b ∈ bs₀, b ∈ bs := fun b hb => hbs ▸ List.mem_append_left _ hb
  have hsize : ∀ a, a ≠ p → a < h.top →
      (((h'.setPtr h.top base).setSize p (h'.size p + nu)).setPtr p base).size a = h.size a := by
    intro a hap hat
    simp only [Heap.setPtr, Heap.setSize]
    rw [update_of_ne hap, hg.size a hat]
  have hn : (h'.size p).toNat = n := by
    rw [hg.size p hplt]
    exact (hl.sizes _ hlast).1
  have htop := hg.top
  have hlt := hg.lt
  refine ⟨⟨?_, hmap ▸ hl.sorted, (hsize base (hne base List.mem_cons_self) hbase).trans hl.base_size, ?_⟩, ?_, ?_, ?_⟩
  · rw [hmap]
    refine hl.circle.congr fun a ha => ?_
    simp only [Heap.setPtr, Heap.setSize]
    by_cases hap : a = p
    · rw [hap, update_self, ← hg.ptr, hp]
    · rw [update_of_ne hap, update_of_ne (hlow a ha).ne, hg.ptr]
  · rw [hmap]
    exact List.mem_cons_of_mem _ (List.mem_map_of_mem hlast)
  · intro b hb
    rcases List.mem_append.mp hb with hb | hb
    · have hmem := List.mem_cons_of_mem base (List.mem_map_of_mem (f := Prod.fst) hb)
      have hmem' := List.mem_cons_of_mem base (List.mem_map_of_mem (f := Prod.fst) (hsub b hb))
      rw [show ({ ((h'.setPtr h.top base).setSize p (h'.size p + nu)).setPtr p base with freep := p } : Heap).size b.1 =
        h.size b.1 from hsize _ (hne _ hmem) (hlow _ hmem')]
      exact hl.sizes b (hsub b hb)
    · obtain rfl := List.mem_singleton.mp hb
      refine ⟨?_, Nat.add_pos_right _ hg.pos⟩
      simp only [Heap.setPtr, Heap.setSize, update_self]
      refine toNat_add_size hn rfl ?_
      unfold HEADER at *
      omega
  · have hapart := hl.apart
    rw [hbs, List.pairwise_append] at hapart
    refine List.pairwise_append.mpr ⟨hapart.1, List.pairwise_singleton _ _, fun x hx y hy => ?_⟩
    obtain rfl := List.mem_singleton.mp hy
    exact hapart.2.2 x hx (p, n) List.mem_cons_self
  · intro b hb
    have htop' : ({ ((h'.setPtr h.top base).setSize p (h'.size p + nu)).setPtr p base with freep := p } : Heap).top = _ :=
      hg.top
    rw [htop']
    rcases List.mem_append.mp hb with hb | hb
    · have := hl.inside b (hsub b hb)
      exact ⟨this.1, by omega⟩
    · obtain rfl := List.mem_singleton.mp hb
      refine ⟨(hl.inside _ hlast).1, ?_⟩
      rw [Nat.mul_add]
      simp only
      omega

/-- A block at the end of memory is put on the list behind the last one, or joined to it. -/
theorem Grown.free : ∃ h'' bs', h'.free 0 (h.top + HEADER) = some h'' ∧ h''.top = h'.top ∧ Listed base h'' bs' ∧
    bs'.length ≤ bs.length + 1 ∧ ∃ b ∈ bs', nu.toNat ≤ b.2 := by
  have hl := hg.list
  obtain ⟨p, hplace, hu, hp⟩ := hg.place
  have hplt := hg.lt_top p hu.mem
  have hfree : h'.free 0 (h.top + HEADER) =
      some { (h'.setPtr h.top base).joinLower h.top p with freep := p } := by
    rw [Heap.free, Nat.add_sub_cancel, hplace, Option.map_some, hg.joinUpper hp]
  rw [hfree, Heap.joinLower]
  split
  · next hend =>
    have hend' : p + HEADER * (h'.size p).toNat = h.top := hend
    rcases hu with ⟨-, rfl⟩ | ⟨ys, hys, -⟩
    · rw [hg.size _ hplt, hl.base_size] at hend'
      exact absurd hend' hplt.ne
    · obtain ⟨bs₀, l, hbs, -, hlast⟩ := List.map_eq_append_iff.mp hys
      obtain ⟨⟨q, n⟩, rfl, rfl⟩ := List.map_eq_singleton_iff.mp hlast
      have hmem : (q, n) ∈ bs := hbs ▸ by simp
      have hn := (hl.sizes _ hmem).1
      simp only at hn hend' hp hplt ⊢
      rw [hg.size _ hplt, hn] at hend'
      have htop : (h'.setPtr h.top base).size h.top = nu := hg.new
      have hnext : (h'.setPtr h.top base).ptr h.top = base := update_self _ _ _
      rw [htop, hnext]
      refine ⟨_, _, rfl, rfl, hg.join hbs hend' hp, ?_, _, List.mem_append_right _ List.mem_cons_self, ?_⟩
      · rw [hbs, List.length_append, List.length_append]
        exact Nat.le_succ _
      · exact Nat.le_add_left _ _
  · refine ⟨_, _, rfl, rfl, hg.link hu, ?_, _, List.mem_append_right _ List.mem_cons_self, le_rfl⟩
    rw [List.length_append]
    exact le_rfl

end List

/-! ## `malloc` -/

section Malloc
variable {sym : Symbols} {root : Addr} {base n : ℕ} {P : Process Kmem} {bs : List (ℕ × ℕ)} {nu nbytes : BitVec 32}

/-- The process, its heap ending at `top`. -/
def Process.upto (P : Process Kmem) (top : ℕ) (mem : Kmem) : Process Kmem := ⟨{ P.heap with top := top }, mem⟩

section Morecore
variable {sz : BitVec 64} {mem : Kmem} {h' : Heap}

theorem morecore_refused
    (hrun : growproc sym root (BitVec.ofNat 64 P.heap.top) (BitVec.ofNat 32 ((Heap.atLeast nu).toNat * HEADER)) P.mem =
      some (-1, sz, mem)) :
    (Process.brk sym root).morecore 0 nu P = some (P.upto sz.toNat mem, 0) := by
  have hsbrk : (Process.brk sym root).sbrk (BitVec.ofNat 32 ((Heap.atLeast nu).toNat * HEADER)) P =
      some (P.upto sz.toNat mem, none) := by
    change Option.map _ (P.sbrk sym root _) = _
    rw [Process.sbrk, hrun]
    rfl
  rw [Brk.morecore, hsbrk]
  rfl

theorem morecore_granted
    (hrun : growproc sym root (BitVec.ofNat 64 P.heap.top) (BitVec.ofNat 32 ((Heap.atLeast nu).toNat * HEADER)) P.mem =
      some (0, sz, mem))
    (hne : P.heap.top ≠ NOMEM) (hmapped : P.heap.top + HEADER ≤ 4096 * pagesOf sz)
    (hfree : ((P.upto sz.toNat mem).heap.setSize P.heap.top (Heap.atLeast nu)).free 0 (P.heap.top + HEADER) = some h') :
    (Process.brk sym root).morecore 0 nu P = some (⟨h', mem⟩, h'.freep) := by
  have hsbrk : (Process.brk sym root).sbrk (BitVec.ofNat 32 ((Heap.atLeast nu).toNat * HEADER)) P =
      some (P.upto sz.toNat mem, some P.heap.top) := by
    change Option.map _ (P.sbrk sym root _) = _
    rw [Process.sbrk, hrun]
    exact congrArg (fun r => some (P.upto sz.toNat mem, r)) (if_neg hne)
  have hm : (Process.brk sym root).mapped (P.upto sz.toNat mem) P.heap.top = true := by
    refine decide_eq_true ?_
    rw [Process.upto, BitVec.ofNat_toNat, BitVec.setWidth_eq]
    exact hmapped
  rw [Brk.morecore, hsbrk]
  change (if (Process.brk sym root).mapped (P.upto sz.toNat mem) P.heap.top = false then none else _) = _
  rw [hm, if_neg (by decide), hfree]
  rfl

end Morecore

theorem morecore_fits (hsym : sym.Fits) {t : Pt}
    (hspace : Uspace sym root P.mem t (pagesOf (BitVec.ofNat 64 P.heap.top))) (hlt : P.heap.top < 2 ^ 64)
    (hl : Listed base P.heap bs) (hb : base + HEADER ≤ P.heap.top) (hpos : 0 < nu.toNat)
    (hfits : (Heap.atLeast nu).toNat * HEADER < 2 ^ 31) :
    (∃ P', (Process.brk sym root).morecore 0 nu P = some (P', 0) ∧ P'.heap = P.heap) ∨
      ∃ P' bs', (Process.brk sym root).morecore 0 nu P = some (P', P'.heap.freep) ∧ Listed base P'.heap bs' ∧
        base + HEADER ≤ P'.heap.top ∧ bs'.length ≤ bs.length + 1 ∧ ∃ b ∈ bs', nu ≤ P'.heap.size b.1 := by
  have hle := le_atLeast nu
  have hint := toInt_request hfits
  have hsz : (BitVec.ofNat 64 P.heap.top).toNat = P.heap.top := Nat.mod_eq_of_lt hlt
  have hd : 0 < (BitVec.ofNat 32 ((Heap.atLeast nu).toNat * HEADER)).toInt := by
    rw [hint]
    unfold HEADER
    omega
  have hsmall := hspace.size_le
  rw [hsz] at hsmall
  obtain ⟨r, sz, mem, hrun, hrep⟩ := growproc_positive hspace hsym hd
  rcases hrep with ⟨rfl, hsum, t', hspace', -⟩ | ⟨rfl, rfl, -⟩
  · right
    rw [hint, hsz] at hsum
    have hmax := hspace'.size_le
    have hnew : sz.toNat = P.heap.top + HEADER * (Heap.atLeast nu).toNat := by
      rw [Nat.mul_comm]
      omega
    have hg : Grown base P.heap ((P.upto sz.toNat mem).heap.setSize P.heap.top (Heap.atLeast nu)) bs (Heap.atLeast nu) :=
      ⟨hl, hb, rfl, rfl, fun a ha => update_of_ne ha.ne _ _, update_self _ _ _, by omega, hnew,
        lt_of_le_of_lt hmax (by decide)⟩
    obtain ⟨h', bs', hfree, htop, hl', hlen, b, hbs, hbig⟩ := hg.free
    have hmapped : P.heap.top + HEADER ≤ 4096 * pagesOf sz := by
      unfold HEADER pagesOf at *
      omega
    refine ⟨⟨h', mem⟩, bs', morecore_granted hrun (by unfold NOMEM; omega) hmapped hfree, hl', ?_, hlen, b, hbs, ?_⟩
    · rw [htop]
      change base + HEADER ≤ sz.toNat
      omega
    · rw [BitVec.le_def, (hl'.sizes b hbs).1]
      exact hle.trans hbig
  · left
    refine ⟨_, morecore_refused hrun, ?_⟩
    rw [hsz]
    rfl

theorem Process.Good.listed (hg : P.Good sym root base) :
    ∃ bs, Listed base (P.heap.listed base) bs ∧ (P.heap.listed base).top = P.heap.top ∧
      ∀ bs, FreeBlocks base P.heap bs → FreeBlocks base (P.heap.listed base) bs := by
  obtain ⟨bs, hbs⟩ := hg.list
  have hnot : ∀ bs', P.heap.freep = 0 → ¬Listed base P.heap bs' := fun bs' h0 hl => hl.freep_ne_zero hg.base_pos h0
  unfold Heap.listed
  split
  · next h0 =>
    have hl : Listed base { (P.heap.setPtr base base).setSize base 0 with freep := base } [] :=
      ⟨⟨update_self _ _ _, List.pairwise_singleton _ _, update_self _ _ _, List.mem_cons_self⟩, by simp, List.Pairwise.nil,
        by simp⟩
    refine ⟨[], hl, rfl, ?_⟩
    rintro bs' (⟨-, rfl⟩ | hl')
    · exact .inr hl
    · exact absurd hl' (hnot bs' h0)
  · next h0 =>
    rcases hbs with ⟨h0', -⟩ | hl
    · exact absurd h0' h0
    · exact ⟨bs, hl, rfl, fun _ h => h⟩

theorem granted_take {P₀ : Process Kmem} {prevp b : ℕ} (hl : Listed base P.heap bs) (hb : b ∈ base :: bs.map Prod.fst)
    (hfit : Heap.unitsFor nbytes ≤ P.heap.size b) :
    Granted base nbytes P₀ ⟨(P.heap.take (Heap.unitsFor nbytes) prevp b).1, P.mem⟩
      (P.heap.take (Heap.unitsFor nbytes) prevp b).2 := by
  obtain ⟨hne, hin, htop⟩ := hl.take_inside prevp hb hfit
  exact ⟨fun _ => hin.trans htop.ge, fun h0 => absurd h0 hne⟩

theorem Process.Good.malloc (hsym : sym.Fits) (hg : P.Good sym root base) (hfits : request nbytes < 2 ^ 31) :
    ∃ P' p, P.malloc sym root base nbytes = some (P', p) ∧ Granted base nbytes P P' p := by
  have hpos := unitsFor_pos nbytes
  obtain ⟨t, hspace⟩ := hg.space
  obtain ⟨bs, hl, htop, hkeep⟩ := hg.listed
  have hb := hg.base_le
  rw [← htop] at hb hspace
  have hlen := hl.length_le hb
  obtain ⟨k, hk, hturns⟩ : ∃ k, bs.length + 2 < k ∧ 2 * (P.heap.listed base).turns 0 = k + 1 + (bs.map Prod.fst).length := by
    rw [List.length_map]
    refine ⟨2 * (P.heap.listed base).turns 0 - bs.length - 1, ?_, ?_⟩ <;>
      (rw [Heap.turns, Nat.sub_zero]; omega)
  rw [Process.malloc, Brk.malloc, hturns]
  set P₁ : Process Kmem := ⟨P.heap.listed base, P.mem⟩
  by_cases hfit : ∃ a ∈ base :: bs.map Prod.fst, Heap.unitsFor nbytes ≤ P₁.heap.size a
  · obtain ⟨p, q, -, hq, -, hqfit, hrun⟩ := hl.search_fit (P := P₁) (Process.brk sym root) 0 hfit
      (n := k + 1 + (bs.map Prod.fst).length) (by omega)
    exact ⟨_, _, hrun, granted_take (P := P₁) hl hq hqfit⟩
  rw [hl.search_none (P := P₁) (Process.brk sym root) 0 k fun a ha hle => hfit ⟨a, ha, hle⟩]
  rcases morecore_fits (P := P₁) hsym hspace (htop ▸ hg.top_lt) hl hb hpos (Nat.mul_comm HEADER _ ▸ hfits) with
    ⟨P', hmore, hheap⟩ | ⟨P', bs', hmore, hl', hb', hlen', b, hbs, hfit'⟩
  · rw [hmore]
    refine ⟨P', 0, rfl, fun h => absurd rfl h, fun _ => ⟨?_, ?_⟩⟩
    · rw [hheap, htop]
    · rw [hheap]
      exact hkeep
  · -- a second turn around the list, which is at most one longer
    obtain ⟨p, q, -, hq, -, hqfit, hrun⟩ := hl'.search_fit (Process.brk sym root) 0 (n := k)
      ⟨b.1, List.mem_cons_of_mem _ (List.mem_map_of_mem hbs), hfit'⟩ (by rw [List.length_map]; omega)
    rw [hmore, Option.bind_some]
    simp only [if_neg (hl'.freep_ne_zero hg.base_pos)]
    exact ⟨_, _, hrun, granted_take hl' hq hqfit⟩

end Malloc

/-! ## Requests that do not fit -/

theorem growproc_in_page {sym : Symbols} {root : Addr} {sz : BitVec 64} {n : BitVec 32} (s : Kmem) (hpos : 0 < n.toInt)
    (hge : ¬sz + n.signExtend 64 < sz) (hle : ¬PGROUNDUP sz < sz + n.signExtend 64) (hne : sz + n.signExtend 64 ≠ 0) :
    growproc sym root sz n s = some (0, sz + n.signExtend 64, s) := by
  rw [growproc, if_pos hpos, uvmalloc, if_neg hge, uvmallocLoop, if_neg hle]
  exact if_neg hne

/-- A process that has not called `malloc`, with half of a page of memory and eight bytes. -/
def halfPage (s : Kmem) : Process Kmem := ⟨⟨fun _ => 0, fun _ => 0, 0, 2056⟩, s⟩

section Huge
variable {sym : Symbols} {root : Addr} {s : Kmem} {t : Pt} {n nu nbytes : BitVec 32}

/-- Any request that is at most one header as an `int` is granted: for a negative one the process shrinks, or nothing
happens when it is too small for that. -/
theorem growproc_halfPage (hsym : sym.Fits) (h : Uspace sym root s t (pagesOf 2056)) (hn : n.toInt ≤ 16)
    (hmod : n.toNat % 16 = 0) :
    ∃ sz s', growproc sym root 2056 n s = some (0, sz, s') ∧ 0 < sz.toNat ∧ sz.toNat ≤ 2072 := by
  have hcond := BitVec.toInt_eq_toNat_cond n
  have hmin : -2 ^ 31 ≤ n.toInt := BitVec.le_toInt n
  have hadd := toNat_add_int 2056 n
  have h2056 : (2056 : BitVec 64).toNat = 2056 := rfl
  rw [h2056] at hadd
  have hint : n.toInt % 16 = 0 := by
    rw [hcond]
    split <;> omega
  rcases lt_trichotomy n.toInt 0 with hneg | hzero | hpos
  · by_cases hlow : 0 ≤ (2056 : ℤ) + n.toInt
    · obtain ⟨r, sz, s', hrun, hrep⟩ := growproc_negative h hsym hneg hlow
      have hrun' := hrun
      rw [growproc, if_neg (by omega), if_pos hneg] at hrun'
      obtain ⟨q, -, hq⟩ := Option.bind_eq_some_iff.mp hrun'
      obtain ⟨rfl, -⟩ := Prod.mk.inj (Option.some.inj hq)
      rcases hrep with ⟨-, hsum, -⟩ | ⟨hr, -⟩
      · rw [h2056] at hsum
        exact ⟨sz, s', hrun, by omega, by omega⟩
      · exact absurd hr (by decide)
    · exact ⟨2056, s, growproc_wraps h (by rw [h2056]; omega), by decide, by decide⟩
  · refine ⟨2056, s, ?_, by decide, by decide⟩
    rw [growproc, if_neg (by omega), if_neg (by omega)]
  · have hround : (PGROUNDUP 2056).toNat = 4096 := by decide
    refine ⟨_, s, growproc_in_page s hpos ?_ ?_ ?_, ?_, ?_⟩
    · rw [BitVec.lt_def, h2056]
      omega
    · rw [BitVec.lt_def, hround]
      omega
    · intro h0
      rw [h0, show (0 : BitVec 64).toNat = 0 from rfl] at hadd
      omega
    · omega
    · omega

theorem free_alone {base a : ℕ} {h : Heap} (hptr : h.ptr base = base) (hsize : h.size base = 0) (hfreep : h.freep = base)
    (hlt : base < a) : h.free 0 (a + HEADER) = some { (h.setPtr a base).setPtr base a with freep := base } := by
  have hplace : h.place a (h.turns 0) base = some base := by
    obtain ⟨k, hk⟩ := Nat.exists_eq_add_one_of_ne_zero (show h.turns 0 ≠ 0 by simp [Heap.turns])
    rw [hk, Heap.place, hptr, if_neg (by omega), if_pos (by omega)]
  have hupper : h.joinUpper a base = h.setPtr a base := by
    rw [Heap.joinUpper, if_neg, hptr]
    rw [hptr, Heap.after]
    omega
  have hafter : (h.setPtr a base).after base = base := by
    have : (h.setPtr a base).size base = 0 := hsize
    rw [Heap.after, this]
    rfl
  rw [Heap.free, Nat.add_sub_cancel, hfreep, hplace, Option.map_some, hupper, Heap.joinLower]
  rw [if_neg (by rw [hafter]; exact hlt.ne)]

theorem huge_request (hbig : 2 ^ 31 ≤ request nbytes) :
    Heap.atLeast (Heap.unitsFor nbytes) = Heap.unitsFor nbytes ∧
      (BitVec.ofNat 32 ((Heap.unitsFor nbytes).toNat * HEADER)).toInt ≤ 16 ∧
      (BitVec.ofNat 32 ((Heap.unitsFor nbytes).toNat * HEADER)).toNat % 16 = 0 := by
  have hlt := nbytes.isLt
  have hunits := unitsFor_toNat nbytes
  have heq : Heap.atLeast (Heap.unitsFor nbytes) = Heap.unitsFor nbytes := by
    unfold request Heap.atLeast at *
    split at hbig
    · exact absurd hbig (by decide)
    · next h => rw [if_neg h]
  rw [request, heq] at hbig
  refine ⟨heq, ?_, ?_⟩
  · rw [BitVec.toInt_eq_toNat_cond, BitVec.toNat_ofNat]
    unfold HEADER at *
    split <;> omega
  · rw [BitVec.toNat_ofNat]
    unfold HEADER
    omega

theorem malloc_halfPage (hsym : sym.Fits) (h : Uspace sym root s t (pagesOf 2056)) (hbig : 2 ^ 31 ≤ request nbytes) :
    ∃ P', (halfPage s).malloc sym root 16 nbytes = some (P', 2072) ∧ P'.heap.top ≤ 2072 := by
  obtain ⟨heq, hint, hmod⟩ := huge_request hbig
  obtain ⟨sz, s', hrun, hpos, hle⟩ := growproc_halfPage hsym h hint hmod
  have hl : Linked 16 ((halfPage s).heap.listed 16) [] := ⟨rfl, List.pairwise_singleton _ _, rfl, List.mem_cons_self⟩
  have hunits := unitsFor_pos nbytes
  set nu := Heap.unitsFor nbytes
  set P : Process Kmem := ⟨(halfPage s).heap.listed 16, s⟩
  have hrun' : growproc sym root (BitVec.ofNat 64 P.heap.top) (BitVec.ofNat 32 ((Heap.atLeast nu).toNat * HEADER)) P.mem =
      some (0, sz, s') := by
    rw [heq]
    exact hrun
  have hmapped : P.heap.top + HEADER ≤ 4096 * pagesOf sz := by
    change 2056 + 16 ≤ 4096 * ((sz.toNat + 4095) / 4096)
    omega
  have hfree := free_alone (a := 2056) (h := (P.upto sz.toNat s').heap.setSize 2056 (Heap.atLeast nu)) rfl rfl rfl
    (show 16 < 2056 by decide)
  obtain ⟨h', hmore, hnext, hsize, htop⟩ : ∃ h' : Heap, (Process.brk sym root).morecore 0 nu P = some (⟨h', s'⟩, 16) ∧
      h'.ptr 16 = 2056 ∧ h'.size 2056 = nu ∧ h'.top = sz.toNat := by
    exact ⟨_, morecore_granted hrun' (show 2056 ≠ NOMEM by decide) hmapped hfree, rfl, heq, rfl⟩
  have hturns : 2 * P.heap.turns 0 = 518 + 1 + 1 + ([] : List ℕ).length := by
    change 2 * (2 * ((2056 - 0) / 16 + 2)) = 520
    decide
  rw [Process.malloc]
  change ∃ P', (Process.brk sym root).search 0 nu (2 * P.heap.turns 0) P.heap.freep (P.heap.ptr P.heap.freep) P = _ ∧ _
  rw [hturns, hl.search_none (P := P) _ 0 (518 + 1) fun a ha => ?_, hmore, Option.bind_some]
  · simp only [if_neg (show ¬16 = 0 by decide)]
    rw [hnext, Brk.search, hsize, if_pos (BitVec.le_refl _), Heap.take, if_pos hsize]
    exact ⟨_, rfl, htop.trans_le hle⟩
  · obtain rfl := List.mem_singleton.mp ha
    exact fun hfit => absurd (BitVec.le_def.mp hfit) (Nat.not_le.mpr hunits)

end Huge

theorem one_page : ∃ s t, Uspace linked 0x88fff000#64 s t (pagesOf 2056) := by
  rw [show pagesOf 2056 = 1 by decide]
  obtain ⟨s₁, hrun, hknown, hz, _⟩ := uvmcreate_known threeFree_pool threePages_isPage
  obtain ⟨s, _, hmap, _⟩ := first_pages threeFree_pool threePages_isPage le_rfl 0x88ffc000#64
    (PTE_R ||| PTE_W ||| PTE_U) Nat.one_pos (by decide)
  rw [hrun] at hmap
  obtain ⟨j, _, hj, _, t, hstep, hlook⟩ := hknown.mappages hmap
  obtain rfl : j = 1 := by
    rcases hj with ⟨_, rfl⟩ | ⟨h, _⟩
    · decide
    · cases h
  have hfirst : lookup s.mem t 0 = PA2PTE 0x88ffc000#64 ||| (PTE_R ||| PTE_W ||| PTE_U) ||| PTE_V := by
    rw [hlook]
    rfl
  have hpage : leafPage s t 0 = 0x88ffc000#64 := by
    rw [leafPage, hfirst]
    decide
  have hzero : ∀ v, v < 1 → v = 0 := fun v hv => by omega
  refine ⟨s, t, hknown.step hstep, ?_, ?_, ?_, ?_, ?_⟩
  · intro v hv
    rw [hzero v hv, hfirst]
    decide
  · intro v hv
    rw [hzero v hv, hpage]
    exact ⟨by decide, by decide, by decide⟩
  · intro v hv
    rw [hzero v hv, hpage, hstep.own, Pt.mem_single_own]
    decide
  · intro v hv w hw _
    rw [hzero v hv, hzero w hw]
  · intro v hv _
    rw [hlook, mapRange_of_not_mem (Or.inr hv), hz]
    rfl

theorem halfPage_good {s : Kmem} {t : Pt} (h : Uspace linked 0x88fff000#64 s t (pagesOf 2056)) :
    (halfPage s).Good linked 0x88fff000#64 16 :=
  ⟨show 2056 < 2 ^ 64 by decide, ⟨t, h⟩, by decide, show 16 + HEADER ≤ 2056 by decide, [], .inl ⟨rfl, rfl⟩⟩

/-- **`malloc` hands out memory that the kernel has granted**, or leaves the process as it was, exactly if what it asks
for fits in an `int`. -/
theorem malloc_granted_iff (nbytes : BitVec 32) :
    (∀ sym root base P, sym.Fits → P.Good sym root base →
      ∃ P' p, P.malloc sym root base nbytes = some (P', p) ∧ Granted base nbytes P P' p) ↔ request nbytes < 2 ^ 31 := by
  constructor
  · intro hall
    by_contra hbig
    obtain ⟨s, t, h⟩ := one_page
    obtain ⟨P', hrun, htop⟩ := malloc_halfPage linked_fits h (Nat.not_lt.mp hbig)
    obtain ⟨P'', p, hrun', hgranted⟩ := hall linked _ 16 (halfPage s) linked_fits (halfPage_good h)
    rw [hrun] at hrun'
    cases hrun'
    have hin := hgranted.inside (by decide)
    have hzero : nbytes = 0 := BitVec.eq_of_toNat_eq (by rw [show (0 : BitVec 32).toNat = 0 from rfl]; omega)
    rw [hzero] at hbig
    exact hbig (by decide)
  · intro hfits sym root base P hsym hg
    exact hg.malloc hsym hfits

/-- `malloc(4294967295)` calls `sbrk(16)`. -/
theorem malloc_behind_memory : ∃ s, (halfPage s).Good linked 0x88fff000#64 16 ∧
    ∃ P', (halfPage s).malloc linked 0x88fff000#64 16 4294967295 = some (P', 2072) ∧
      P'.heap.top < 2072 + (4294967295 : BitVec 32).toNat := by
  obtain ⟨s, t, h⟩ := one_page
  obtain ⟨P', hrun, htop⟩ := malloc_halfPage linked_fits h (show 2 ^ 31 ≤ request 4294967295 by decide)
  exact ⟨s, halfPage_good h, P', hrun, htop.trans_lt (by decide)⟩

end Xv6Boot.User.Umalloc
