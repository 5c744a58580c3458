import Xv6Boot.Foundations.Transition
import Xv6Boot.User.Umalloc

/-! # Runs of the user heap

A program calls `malloc` and `free` in any order and stores into the memory it holds. Whether `sbrk` succeeds is
part of a call. A store may leave anything in a header that overlaps a live block's bytes.
-/

namespace Xv6Boot.User.Umalloc
open Function FreeList Transition

/-! ## The program's calls -/

structure State where
  heap : Heap
  /-- The pointers the program holds, each with the number of bytes it asked for. -/
  live : List (ℕ × ℕ)

inductive Action
  | malloc (nbytes : BitVec 32) (grant : Bool)
  | free (p : ℕ)
  | store (a ptr : ℕ) (size : BitVec 32)

def step (base start : ℕ) (s : State) : Action → Outcome State
  | .malloc nbytes grant =>
    match s.heap.malloc base start grant nbytes with
    | none => .panic "malloc"
    | some (h, p) => .next ⟨h, if p = 0 then s.live else (p, nbytes.toNat) :: s.live⟩
  | .free p =>
    if p ∈ s.live.map Prod.fst then
      match s.heap.free start p with
      | none => .panic "free"
      | some h => .next ⟨h, s.live.filter fun b => b.1 ≠ p⟩
    else .disabled
  | .store a ptr size =>
    if ∃ b ∈ s.live, a < b.1 + b.2 ∧ b.1 < a + HEADER then .next { s with heap := (s.heap.setPtr a ptr).setSize a size }
    else .disabled

def boot (ptr : ℕ → ℕ) (size : ℕ → BitVec 32) (start : ℕ) : State := ⟨⟨ptr, size, 0, start⟩, []⟩

/-- The bytes a call of `morecore` asks for. -/
def request (nbytes : BitVec 32) : ℕ := HEADER * (Heap.atLeast (Heap.unitsFor nbytes)).toNat

/-- What `malloc` passes to `sbrk` fits in an `int`. -/
def Fits (_ : State) : Action → Prop
  | .malloc nbytes _ => request nbytes < 2 ^ 31
  | _ => True

/-- And all memory from `sbrk` is fewer than `2 ^ 32` headers. -/
def Bounded (start : ℕ) (s : State) (e : Action) : Prop :=
  Fits s e ∧ match e with
    | .malloc nbytes grant => grant = true → s.heap.top + request nbytes < start + HEADER * 2 ^ 32
    | _ => True

instance (s : State) : DecidablePred (Fits s)
  | .malloc _ _ => inferInstanceAs (Decidable (_ < _))
  | .free _ => .isTrue trivial
  | .store _ _ _ => .isTrue trivial

instance (start : ℕ) (s : State) : DecidablePred (Bounded start s)
  | .malloc _ _ => inferInstanceAs (Decidable (_ ∧ (_ → _)))
  | .free _ => .isTrue ⟨trivial, trivial⟩
  | .store _ _ _ => .isTrue ⟨trivial, trivial⟩

/-! ## What is kept -/

/-- The live blocks are those the program holds, and each has room for what was asked for. -/
structure Matches (live : List (ℕ × ℕ)) (bs : List Block) : Prop where
  pointers : (live.map Prod.fst).Perm ((lives bs).map fun x => x.addr + HEADER)
  room : ∀ b ∈ live, ∀ x ∈ lives bs, x.addr + HEADER = b.1 → b.2 + HEADER ≤ x.bytes

/-- Before the first call, or blocks fill the memory from `sbrk` as `Shape` says. -/
def WellKept (base start : ℕ) (s : State) : Prop :=
  (s.heap.freep = 0 ∧ s.heap.top = start ∧ s.live = []) ∨
    ∃ bs, Shape base start s.heap bs ∧ (base :: frees bs).Pairwise (· < ·) ∧
      (bs.Pairwise fun x y => x.addr + x.bytes ≤ y.addr) ∧ Matches s.live bs

section Kept
variable {base start n p : ℕ} {s s' : State} {h : Heap} {live : List (ℕ × ℕ)} {bs bs' l r : List Block} {x : Block}

theorem Shape.wellKept (hs : Shape base start s.heap bs) (hb : base < start) (hm : Matches s.live bs) :
    WellKept base start s := .inr ⟨bs, hs, hs.sorted hb, hs.tiles.pairwise, hm⟩

theorem Shape.lives_nodup (hs : Shape base start h bs) : ((lives bs).map fun x => x.addr + HEADER).Nodup := by
  refine List.pairwise_map.mpr (List.Pairwise.filter _ (List.Pairwise.imp_of_mem ?_ hs.tiles.pairwise))
  intro x y hx _ hle
  have := (hs.tiles.mem hx).2.1
  omega

theorem Matches.add (hm : Matches live bs) (hl : lives bs = l ++ r) (hl' : lives bs' = l ++ x :: r)
    (hd : ((lives bs').map fun x => x.addr + HEADER).Nodup) (hn : n + HEADER ≤ x.bytes) :
    Matches ((x.addr + HEADER, n) :: live) bs' := by
  have hpointers := hm.pointers
  rw [hl, List.map_append] at hpointers
  have hx : x ∈ lives bs' := hl' ▸ by simp
  have hnew : x.addr + HEADER ∉ live.map Prod.fst := by
    rw [hl', List.map_append, List.map_cons] at hd
    rw [hpointers.mem_iff]
    exact (List.nodup_cons.mp (List.perm_middle.nodup_iff.mp hd)).1
  refine ⟨?_, fun b hb y hy he => ?_⟩
  · rw [hl', List.map_append, List.map_cons, List.map_cons]
    exact (hpointers.cons _).trans List.perm_middle.symm
  · rcases List.mem_cons.mp hb with rfl | hb
    · obtain rfl : y = x := List.inj_on_of_nodup_map hd hy hx he
      exact hn
    · refine hm.room b hb y ?_ he
      have hyx : y ≠ x := fun h => hnew (h ▸ he ▸ List.mem_map_of_mem hb)
      rw [hl'] at hy
      rw [hl]
      simpa [hyx] using hy

theorem Matches.remove (hm : Matches live bs) (hl : lives bs = l ++ x :: r) (hl' : lives bs' = l ++ r)
    (hd : ((lives bs).map fun x => x.addr + HEADER).Nodup) :
    Matches (live.filter fun b => b.1 ≠ x.addr + HEADER) bs' := by
  have hpointers := hm.pointers
  rw [hl, List.map_append, List.map_cons] at hpointers hd
  obtain ⟨hnot, -⟩ := List.nodup_cons.mp (List.perm_middle.nodup_iff.mp hd)
  have hkeep := List.filter_eq_self.mpr fun a ha => decide_eq_true (ne_of_mem_of_not_mem ha hnot)
  have hrest := (hpointers.trans List.perm_middle).filter fun a => decide (a ≠ x.addr + HEADER)
  rw [List.filter_cons_of_neg (by simp), hkeep, ← List.map_append, ← hl', List.filter_map] at hrest
  refine ⟨hrest, fun b hb y hy => hm.room b (List.mem_filter.mp hb).1 y ?_⟩
  rw [hl'] at hy
  rw [hl]
  rcases List.mem_append.mp hy with hy | hy <;> simp [hy]

/-! ## One call -/

theorem malloc_boot (h : Heap) {grant : Bool} {nbytes : BitVec 32} (hfreep : h.freep = 0) (h0 : 0 < base) :
    h.malloc base start grant nbytes =
      Heap.malloc { (h.setPtr base base).setSize base 0 with freep := base } base start grant nbytes := by
  rw [Heap.malloc, Brk.malloc, Heap.listed, if_pos hfreep, Heap.malloc, Brk.malloc, Heap.listed, if_neg h0.ne']

theorem shape_boot (h : Heap) (htop : h.top = start) :
    Shape base start { (h.setPtr base base).setSize base 0 with freep := base } [] where
  tiles := htop.symm
  sizes := by simp
  apart := List.isChain_nil
  circle := update_self _ _ _
  base_size := update_self _ _ _
  freep := List.mem_cons_self

theorem Shape.step_malloc {grant : Bool} {nbytes : BitVec 32} (hs : Shape base start h bs) (hm : Matches live bs)
    (hb : base < start) (h0 : 0 < base) (htop : h.top < start + HEADER * 2 ^ 32) (hfits : request nbytes < 2 ^ 31)
    (hgrant : grant = true → h.top + request nbytes < start + HEADER * 2 ^ 32) :
    ∃ s', step base start ⟨h, live⟩ (.malloc nbytes grant) = .next s' ∧ WellKept base start s' ∧
      s'.heap.top < start + HEADER * 2 ^ 32 := by
  obtain ⟨h', a, hmalloc, htop', hserved⟩ := hs.malloc grant hb h0 (Nat.mul_comm HEADER _ ▸ hfits) hgrant
  refine ⟨⟨h', if a = 0 then live else (a, nbytes.toNat) :: live⟩, by rw [step, hmalloc], ?_, ?_⟩
  · cases hserved with
    | none hs' => exact hs'.wellKept hb hm
    | some ht hlives =>
      refine ht.shape.wellKept hb ?_
      rw [if_neg (Nat.ne_of_gt (Nat.add_pos_right _ (by decide)))]
      exact hm.add hlives ht.lives_eq ht.shape.lives_nodup (le_unitsFor nbytes)
  · rcases htop' with he | ⟨hg, he⟩
    · exact he.trans_lt htop
    · exact he.trans_lt (hgrant hg)

theorem Shape.step_free (hs : Shape base start h bs) (hm : Matches live bs) (hb : base < start)
    (htop : h.top < start + HEADER * 2 ^ 32) (hp : p ∈ live.map Prod.fst) :
    ∃ s', step base start ⟨h, live⟩ (.free p) = .next s' ∧ WellKept base start s' ∧
      s'.heap.top < start + HEADER * 2 ^ 32 := by
  obtain ⟨x, hx, rfl⟩ := List.mem_map.mp (hm.pointers.mem_iff.mp hp)
  obtain ⟨hx, hlive⟩ := List.mem_filter.mp hx
  obtain ⟨l, r, rfl⟩ := List.append_of_mem hx
  obtain ⟨h', bs', hfree, htop', hf⟩ := hs.free hlive hb htop
  have hlives : lives (l ++ x :: r) = lives l ++ x :: lives r := by rw [lives_append, lives_cons_live hlive]
  refine ⟨⟨h', live.filter fun b => b.1 ≠ x.addr + HEADER⟩, ?_, ?_, htop'.trans_lt htop⟩
  · rw [step, if_pos hp, hfree]
  · exact hf.shape.wellKept hb (hm.remove hlives hf.lives_eq hs.lives_nodup)

theorem Shape.store {a ptr : ℕ} {size : BitVec 32} {b : ℕ × ℕ} (hs : Shape base start h bs) (hm : Matches live bs)
    (hb : base < start) (hbm : b ∈ live) (hlt : a < b.1 + b.2) (hgt : b.1 < a + HEADER) :
    Shape base start ((h.setPtr a ptr).setSize a size) bs := by
  obtain ⟨y, hy, hyb⟩ := List.mem_map.mp (hm.pointers.mem_iff.mp (List.mem_map_of_mem hbm))
  have hroom := hm.room b hbm y hy hyb
  have hymem := (List.mem_filter.mp hy).1
  have hybounds := hs.tiles.mem hymem
  have hinside : y.addr < a ∧ a < y.addr + y.bytes := by omega
  have hne : ∀ x ∈ bs, x.addr ≠ a := by
    obtain ⟨l, r, rfl⟩ := List.append_of_mem hymem
    obtain ⟨hbefore, hafter⟩ := hs.tiles.around
    intro x hx
    rcases List.mem_append.mp hx with hx | hx
    · have := hbefore x hx
      omega
    · rcases List.mem_cons.mp hx with rfl | hx
      · omega
      · have := hafter x hx
        omega
  have hbase : base ≠ a := by omega
  refine ⟨hs.tiles, fun x hx => ?_, hs.apart, hs.circle.congr fun c hc => ?_, ?_, hs.freep⟩
  · rw [← hs.sizes x hx]
    exact congrArg BitVec.toNat (update_of_ne (hne x hx) _ _)
  · refine update_of_ne ?_ _ _
    rcases List.mem_cons.mp hc with rfl | hc
    · exact hbase
    · obtain ⟨x, hx, -, rfl⟩ := mem_frees.mp hc
      exact hne x hx
  · exact (update_of_ne hbase _ _).trans hs.base_size

/-- A call or a store by the program keeps the heap as it should be, and its loops end. -/
theorem WellKept.step {e : Action} (hk : WellKept base start s) (hb : base < start) (h0 : 0 < base)
    (htop : s.heap.top < start + HEADER * 2 ^ 32) (hok : Bounded start s e) :
    step base start s e = .disabled ∨ ∃ s', Umalloc.step base start s e = .next s' ∧ WellKept base start s' ∧
      s'.heap.top < start + HEADER * 2 ^ 32 := by
  obtain ⟨h, live⟩ := s
  cases e with
  | malloc nbytes grant =>
    right
    rcases hk with ⟨hfreep, hstart, hlive⟩ | ⟨bs, hs, -, -, hm⟩
    · obtain rfl : live = [] := hlive
      have hempty : Matches [] [] := ⟨.refl _, by simp⟩
      rw [Umalloc.step, malloc_boot h hfreep h0]
      exact (shape_boot h hstart).step_malloc hempty hb h0 htop hok.1 hok.2
    · exact hs.step_malloc hm hb h0 htop hok.1 hok.2
  | free p =>
    by_cases hp : p ∈ live.map Prod.fst
    · right
      rcases hk with ⟨-, -, hlive⟩ | ⟨bs, hs, -, -, hm⟩
      · obtain rfl : live = [] := hlive
        cases hp
      · exact hs.step_free hm hb htop hp
    · exact .inl (if_neg hp)
  | store a ptr size =>
    by_cases hp : ∃ b ∈ live, a < b.1 + b.2 ∧ b.1 < a + HEADER
    · right
      obtain ⟨b, hbm, hlt, hgt⟩ := hp
      rcases hk with ⟨-, -, hlive⟩ | ⟨bs, hs, -, -, hm⟩
      · obtain rfl : live = [] := hlive
        cases hbm
      · exact ⟨_, if_pos ⟨b, hbm, hlt, hgt⟩, (hs.store hm hb hbm hlt hgt).wellKept hb hm, htop⟩
    · exact .inl (if_neg hp)

end Kept

/-! ## Whole runs -/

variable {base start : ℕ} {ptr : ℕ → ℕ} {size : ℕ → BitVec 32} {es : List Action} {s : State}

theorem run_kept (hb : base < start) (h0 : 0 < base)
    (hrun : Run (step base start) (Bounded start) (boot ptr size start) es s) :
    WellKept base start s ∧ s.heap.top < start + HEADER * 2 ^ 32 := by
  induction hrun with
  | nil => exact ⟨.inl ⟨rfl, rfl, rfl⟩, Nat.lt_add_of_pos_right (by decide)⟩
  | snoc _ hok hst ih =>
    rcases ih.1.step hb h0 ih.2 hok with hd | ⟨s', hn, hk⟩
    · rw [hd] at hst
      cases hst
    · rw [hn] at hst
      cases hst
      exact hk

theorem run_wellKept (hb : base < start) (h0 : 0 < base)
    (hrun : Run (step base start) (Bounded start) (boot ptr size start) es s) :
    WellKept base start s ∧ ∀ e, Bounded start s e → ∀ msg, step base start s e ≠ .panic msg := by
  obtain ⟨hk, htop⟩ := run_kept hb h0 hrun
  refine ⟨hk, fun e hok msg hp => ?_⟩
  rcases hk.step hb h0 htop hok with hd | ⟨s', hn, -⟩
  · rw [hd] at hp
    cases hp
  · rw [hn] at hp
    cases hp

/-- Three blocks from one call of `sbrk`; the outer two are freed, then the one between them. -/
def sampleCalls : List Action :=
  [.malloc 100 true, .malloc 20 false, .malloc 7 false, .store 65410 0 5, .free 65456, .free 65376, .free 65408]

theorem sampleCalls_kept :
    ∃ s, Run (step 16 32) (Bounded 32) (boot (fun _ => 0) (fun _ => 0) 32) sampleCalls s ∧
      (s.live = [] ∧ s.heap.top = 65568) ∧
      WellKept 16 32 s ∧ ∀ e, Bounded 32 s e → ∀ msg, step 16 32 s e ≠ .panic msg := by
  have hcheck : (exec (guarded (step 16 32) (Bounded 32)) sampleCalls (boot (fun _ => 0) (fun _ => 0) 32)).check
      (fun s => decide (s.live = [] ∧ s.heap.top = 65568)) = true := by decide +kernel
  obtain ⟨s, hrun, hs⟩ := exists_run_of_check _ _ hcheck
  exact ⟨s, hrun, of_decide_eq_true hs, run_wellKept (by decide) (by decide) hrun⟩

theorem Shape.eq_singleton {h : Heap} {bs : List Block} (hs : Shape base start h bs) (hl : lives bs = [])
    (htop : start < h.top) : HEADER * (h.size start).toNat = h.top - start := by
  have hfree : ∀ x ∈ bs, x.live = false := by
    intro x hx
    simpa using List.filter_eq_nil_iff.mp hl x hx
  have ht := hs.tiles
  have hapart := hs.apart
  match bs, hs.sizes with
  | [], _ => exact absurd ht htop.ne
  | [x], hsizes =>
    obtain ⟨rfl, -, ht⟩ := ht
    have he : x.addr + x.bytes = h.top := ht
    rw [hsizes x List.mem_cons_self, ← he, Nat.add_sub_cancel_left]
    rfl
  | x :: y :: _, _ =>
    rw [List.map_cons, List.map_cons, hfree x (by simp), hfree y (by simp)] at hapart
    simp at hapart

/-- As many blocks as it takes for their sizes to add up to more than `2 ^ 32` headers, all freed. -/
def hugeCalls : List Action :=
  List.replicate 33 (.malloc (2 ^ 31 - 32) true) ++ (List.range 33).map fun i => .free (48 + i * (2 ^ 31 - 16))

theorem hugeCalls_not_kept :
    ∃ s, Run (step 16 32) Fits (boot (fun _ => 0) (fun _ => 0) 32) hugeCalls s ∧ ¬ WellKept 16 32 s := by
  have hcheck : (exec (guarded (step 16 32) Fits) hugeCalls (boot (fun _ => 0) (fun _ => 0) 32)).check
      (fun s => decide (s.live = [] ∧ s.heap.top = 32 + 33 * (2 ^ 31 - 16) ∧ s.heap.size 32 = 2 ^ 27 - 33)) = true := by
    decide +kernel
  obtain ⟨s, hrun, hs⟩ := exists_run_of_check _ _ hcheck
  obtain ⟨hlive, htop, hsize⟩ := of_decide_eq_true hs
  refine ⟨s, hrun, ?_⟩
  rintro (⟨-, he, -⟩ | ⟨bs, hshape, -, -, hm⟩)
  · omega
  · have hpointers := hm.pointers
    rw [hlive] at hpointers
    have hone := hshape.eq_singleton (by simpa using hpointers.symm.eq_nil) (by omega)
    rw [htop, hsize] at hone
    revert hone
    decide

end Xv6Boot.User.Umalloc
