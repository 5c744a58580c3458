import Xv6Boot.Foundations.FreeList

/-! # `umalloc.c`: the user heap

Addresses are numbers, and memory is the two fields of a header at each address. `base` is the address of the
static header; the memory from `sbrk` starts at `start` and ends at `top`. A search loop that does not come to
an end within twice as many turns as there can be blocks has no result.
-/

namespace Xv6Boot.User.Umalloc
open Function FreeList

/-! ## The code -/

/-- `sizeof(Header)` -/
def HEADER : ℕ := 16

structure Heap where
  ptr : ℕ → ℕ
  size : ℕ → BitVec 32
  freep : ℕ
  top : ℕ

namespace Heap
variable (h : Heap)

def setPtr (a v : ℕ) : Heap := { h with ptr := update h.ptr a v }

def setSize (a : ℕ) (n : BitVec 32) : Heap := { h with size := update h.size a n }

/-- `p + p->s.size` -/
def after (p : ℕ) : ℕ := p + HEADER * (h.size p).toNat

/-- The loop of `free`. -/
def place (bp : ℕ) : ℕ → ℕ → Option ℕ
  | 0, _ => none
  | turns + 1, p =>
    if p < bp ∧ bp < h.ptr p then some p
    else if h.ptr p ≤ p ∧ (p < bp ∨ bp < h.ptr p) then some p
    else place bp turns (h.ptr p)

/-- The block after `bp` in the list is joined to it when it is adjacent. -/
def joinUpper (bp p : ℕ) : Heap :=
  if h.after bp = h.ptr p then (h.setSize bp (h.size bp + h.size (h.ptr p))).setPtr bp (h.ptr (h.ptr p))
  else h.setPtr bp (h.ptr p)

/-- `bp` is joined to the block before it in the list, or put behind it. -/
def joinLower (bp p : ℕ) : Heap :=
  if h.after p = bp then (h.setSize p (h.size p + h.size bp)).setPtr p (h.ptr bp) else h.setPtr p bp

def turns (start : ℕ) : ℕ := 2 * ((h.top - start) / HEADER + 2)

def free (start ap : ℕ) : Option Heap :=
  let bp := ap - HEADER
  (h.place bp (h.turns start) h.freep).map fun p => { (h.joinUpper bp p).joinLower bp p with freep := p }

/-- `nu` as `morecore` asks for it. -/
def atLeast (nu : BitVec 32) : BitVec 32 := if nu < 4096 then 4096 else nu

def take (nunits : BitVec 32) (prevp p : ℕ) : Heap × ℕ :=
  if h.size p = nunits then ({ h.setPtr prevp (h.ptr p) with freep := prevp }, p + HEADER)
  else
    let h' := h.setSize p (h.size p - nunits)
    ({ h'.setSize (h'.after p) nunits with freep := prevp }, h'.after p + HEADER)

/-- `(nbytes + sizeof(Header) - 1)/sizeof(Header) + 1` -/
def unitsFor (nbytes : BitVec 32) : BitVec 32 := BitVec.ofNat 32 ((nbytes.toNat + HEADER - 1) / HEADER + 1)

/-- `if((prevp = freep) == 0)` -/
def listed (base : ℕ) : Heap := if h.freep = 0 then { (h.setPtr base base).setSize base 0 with freep := base } else h

end Heap

/-- The heap of a process, and what the kernel keeps of it. -/
structure Process (τ : Type) where
  heap : Heap
  mem : τ

/-- `sbrk` gives the address of the new memory, or nothing for `(char*)-1`; `mapped` says whether the header at an address
can be written. -/
structure Brk (τ : Type) where
  sbrk : BitVec 32 → Process τ → Option (Process τ × Option ℕ)
  mapped : Process τ → ℕ → Bool

namespace Brk
variable {τ : Type} (B : Brk τ) (start : ℕ)

/-- With the address it returns. -/
def morecore (nu : BitVec 32) (P : Process τ) : Option (Process τ × ℕ) := do
  let nu := Heap.atLeast nu
  let (P, r) ← B.sbrk (BitVec.ofNat 32 (nu.toNat * HEADER)) P
  match r with
  | none => some (P, 0)
  | some p =>
    if B.mapped P p = false then none
    else ((P.heap.setSize p nu).free start (p + HEADER)).map fun h => (⟨h, P.mem⟩, h.freep)

/-- The loop of `malloc`. -/
def search (nunits : BitVec 32) : ℕ → ℕ → ℕ → Process τ → Option (Process τ × ℕ)
  | 0, _, _, _ => none
  | turns + 1, prevp, p, P =>
    if nunits ≤ P.heap.size p then
      let r := P.heap.take nunits prevp p
      some (⟨r.1, P.mem⟩, r.2)
    else if p = P.heap.freep then do
      let (P, p) ← B.morecore start nunits P
      if p = 0 then some (P, 0) else search nunits turns p (P.heap.ptr p) P
    else search nunits turns p (P.heap.ptr p) P

def malloc (base : ℕ) (nbytes : BitVec 32) (P : Process τ) : Option (Process τ × ℕ) :=
  let P : Process τ := ⟨P.heap.listed base, P.mem⟩
  B.search start (Heap.unitsFor nbytes) (2 * P.heap.turns start) P.heap.freep (P.heap.ptr P.heap.freep) P

end Brk

/-- `sbrk` does what it is asked for, or fails. -/
def granting (grant : Bool) : Brk Unit where
  sbrk k P := some (if grant then (⟨{ P.heap with top := (P.heap.top + k.toInt).toNat }, ()⟩, some P.heap.top) else
    (P, none))
  mapped _ _ := true

def Heap.malloc (h : Heap) (base start : ℕ) (grant : Bool) (nbytes : BitVec 32) : Option (Heap × ℕ) :=
  ((granting grant).malloc start base nbytes ⟨h, ()⟩).map fun r => (r.1.heap, r.2)

/-! ## Blocks -/

/-- A block with its header, of `units` times the size of a header. -/
structure Block where
  addr : ℕ
  units : ℕ
  live : Bool

def Block.bytes (x : Block) : ℕ := HEADER * x.units

def Block.freed (x : Block) : Block := { x with live := false }

def frees (bs : List Block) : List ℕ := (bs.filter fun x => !x.live).map Block.addr

def lives (bs : List Block) : List Block := bs.filter Block.live

/-- Memory from `start` on is blocks in address order, no two adjacent ones free, and the free ones are linked in
that order from `base` on and back to it. -/
structure Shape (base start : ℕ) (h : Heap) (bs : List Block) : Prop where
  tiles : Tiles Block.addr Block.bytes start bs h.top
  sizes : ∀ x ∈ bs, (h.size x.addr).toNat = x.units
  apart : (bs.map Block.live).IsChain fun a b => a = true ∨ b = true
  circle : Path h.ptr base (frees bs) base
  base_size : h.size base = 0
  freep : h.freep ∈ base :: frees bs

@[simp] theorem frees_append (l r : List Block) : frees (l ++ r) = frees l ++ frees r := by simp [frees]

@[simp] theorem frees_cons_live {x : Block} (hx : x.live = true) (r : List Block) : frees (x :: r) = frees r := by
  simp [frees, hx]

@[simp] theorem frees_cons_free {x : Block} (hx : x.live = false) (r : List Block) :
    frees (x :: r) = x.addr :: frees r := by
  simp [frees, hx]

theorem mem_frees {bs : List Block} {a : ℕ} : a ∈ frees bs ↔ ∃ x ∈ bs, x.live = false ∧ x.addr = a := by
  simp [frees, and_assoc]

/-! ## The loop of `free` -/

section Place
variable {base start bp n : ℕ} {h : Heap} {l r bs : List Block} {x : Block}

theorem place_above {a : ℕ} {xs : List ℕ} (hp : Path h.ptr a xs base) (hs : (a :: xs).Pairwise (· < ·))
    (ha : ∀ b ∈ a :: xs, bp < b) (hb : base < bp) (hn : xs.length < n) :
    h.place bp n a = h.place bp (n - xs.length - 1) base := by
  have h0 := ha a List.mem_cons_self
  obtain ⟨k, rfl⟩ : ∃ k, n = k + 1 := ⟨n - 1, by omega⟩
  induction xs generalizing a k with
  | nil =>
    have hnext : h.ptr a = base := hp
    rw [Heap.place, hnext, if_neg (by omega), if_neg (by omega)]
    rfl
  | cons x xs ih =>
    obtain ⟨hnext, hrest⟩ := hp
    obtain ⟨hlt, hs⟩ := List.pairwise_cons.mp hs
    have hx := hlt x List.mem_cons_self
    have ha' : ∀ b ∈ x :: xs, bp < b := fun b hb => ha b (List.mem_cons_of_mem _ hb)
    rw [List.length_cons] at hn ⊢
    obtain ⟨k, rfl⟩ : ∃ k', k = k' + 1 := ⟨k - 1, by omega⟩
    rw [Heap.place, hnext, if_neg (by omega), if_neg (by omega), ih hrest hs ha' (ha' x List.mem_cons_self) k (by omega)]
    congr 1
    omega

theorem place_below {a : ℕ} {xs ys : List ℕ} (hp : Path h.ptr a (xs ++ ys) base) (hs : (a :: xs).Pairwise (· < ·))
    (ha : ∀ b ∈ a :: xs, base ≤ b ∧ b < bp) (hys : ∀ b ∈ ys, bp < b) (hn : xs.length < n) :
    ∃ p, h.place bp n a = some p ∧ Upto h.ptr a xs p ∧ Path h.ptr p ys base := by
  have h0 := ha a List.mem_cons_self
  obtain ⟨k, rfl⟩ : ∃ k, n = k + 1 := ⟨n - 1, by omega⟩
  induction xs generalizing a k with
  | nil =>
    refine ⟨a, ?_, .inl ⟨rfl, rfl⟩, hp⟩
    rw [List.nil_append] at hp
    rw [Heap.place]
    cases ys with
    | nil =>
      have hnext : h.ptr a = base := hp
      rw [hnext, if_neg (by omega), if_pos (by omega)]
    | cons y ys =>
      have hy := hys y List.mem_cons_self
      rw [hp.1, if_pos ⟨h0.2, hy⟩]
  | cons x xs ih =>
    obtain ⟨hnext, hrest⟩ := hp
    obtain ⟨hlt, hs⟩ := List.pairwise_cons.mp hs
    have hx := hlt x List.mem_cons_self
    have ha' : ∀ b ∈ x :: xs, base ≤ b ∧ b < bp := fun b hb => ha b (List.mem_cons_of_mem _ hb)
    have hxb := ha' x List.mem_cons_self
    rw [List.length_cons] at hn
    obtain ⟨k, rfl⟩ : ∃ k', k = k' + 1 := ⟨k - 1, by omega⟩
    obtain ⟨p, hplace, hu, hpath⟩ := ih hrest hs ha' hxb k (by omega)
    refine ⟨p, ?_, hu.cons hnext, hpath⟩
    rw [Heap.place, hnext, if_neg (by omega), if_neg (by omega)]
    exact hplace

/-- The search around a circle in address order, from any of its nodes. -/
theorem place_circle {f : ℕ} {xs ys : List ℕ} (hp : Path h.ptr base (xs ++ ys) base)
    (hs : (base :: (xs ++ ys)).Pairwise (· < ·)) (hlow : ∀ b ∈ base :: xs, b < bp) (hhigh : ∀ b ∈ ys, bp < b)
    (hf : f ∈ base :: (xs ++ ys)) (hn : 2 * (xs.length + ys.length + 1) ≤ n) :
    ∃ p, h.place bp n f = some p ∧ Upto h.ptr base xs p ∧ Path h.ptr p ys base := by
  have hxs : (base :: xs).Pairwise (· < ·) := hs.sublist ((List.sublist_append_left _ _).cons_cons base)
  have hbelow : ∀ b ∈ base :: xs, base ≤ b ∧ b < bp := by
    intro b hb
    refine ⟨?_, hlow b hb⟩
    rcases List.mem_cons.mp hb with rfl | hb
    · exact le_rfl
    · exact ((List.pairwise_cons.mp hxs).1 b hb).le
  have hfrom : ∀ k, xs.length < k → ∃ p, h.place bp k base = some p ∧ Upto h.ptr base xs p ∧ Path h.ptr p ys base :=
    fun k hk => place_below hp hxs hbelow hhigh hk
  rcases List.mem_cons.mp hf with rfl | hf
  · exact hfrom n (by omega)
  rcases List.mem_append.mp hf with hf | hf
  · obtain ⟨us, vs, rfl⟩ := List.append_of_mem hf
    rw [List.append_assoc, List.cons_append, path_append] at hp
    have hsub : (f :: vs).Sublist (base :: (us ++ f :: vs)) := (List.sublist_append_right us _).cons base
    rw [List.length_append, List.length_cons] at hn
    obtain ⟨p, hplace, hu, hpath⟩ := place_below hp.2 (hxs.sublist hsub) (fun b hb => hbelow b (hsub.subset hb)) hhigh
      (n := n) (by omega)
    refine ⟨p, hplace, ?_, hpath⟩
    rcases hu with ⟨rfl, rfl⟩ | ⟨vs', rfl, hu⟩
    · exact .inr ⟨us, rfl, hp.1⟩
    · exact .inr ⟨us ++ f :: vs', by simp, path_append.mpr ⟨hp.1, hu⟩⟩
  · obtain ⟨us, vs, rfl⟩ := List.append_of_mem hf
    rw [← List.append_assoc] at hp
    have hsub : (f :: vs).Sublist (us ++ f :: vs) := List.sublist_append_right us _
    have hys := hs.sublist ((List.sublist_append_right _ _).cons base)
    rw [List.length_append, List.length_cons] at hn
    rw [place_above (path_append.mp hp).2 (hys.sublist hsub) (fun b hb => hhigh b (hsub.subset hb))
      (hlow base List.mem_cons_self) (by omega)]
    exact hfrom _ (by omega)

theorem Tiles.frees_sorted {a b : ℕ} (ht : Tiles Block.addr Block.bytes a bs b) : (frees bs).Pairwise (· < ·) := by
  have hp := ht.pairwise
  refine List.pairwise_map.mpr (List.Pairwise.filter _ (List.Pairwise.imp_of_mem ?_ hp))
  intro x y hx _ hle
  have := (ht.mem hx).2.1
  omega

theorem Tiles.frees_bounds {a b c : ℕ} (ht : Tiles Block.addr Block.bytes a bs b) (hc : c ∈ frees bs) : a ≤ c ∧ c < b := by
  obtain ⟨x, hx, -, rfl⟩ := mem_frees.mp hc
  have := ht.mem hx
  omega

theorem Shape.sorted (hs : Shape base start h bs) (hb : base < start) : (base :: frees bs).Pairwise (· < ·) :=
  List.pairwise_cons.mpr ⟨fun _ ha => hb.trans_le (Tiles.frees_bounds hs.tiles ha).1, Tiles.frees_sorted hs.tiles⟩

theorem frees_length_le (bs : List Block) : (frees bs).length ≤ bs.length := by
  rw [frees, List.length_map]
  exact List.length_filter_le _ _

theorem Tiles.frees_length {a b : ℕ} (ht : Tiles Block.addr Block.bytes a bs b) :
    (frees bs).length ≤ (b - a) / HEADER := by
  have hle := ht.length_le (k := HEADER) fun x hx => by
    have := (ht.mem hx).2.1
    unfold Block.bytes HEADER at *
    omega
  have := frees_length_le bs
  refine this.trans ((Nat.le_div_iff_mul_le (by decide)).mpr ?_)
  rw [Nat.mul_comm]
  omega

theorem Tiles.frees_around {a b : ℕ} (ht : Tiles Block.addr Block.bytes a (l ++ x :: r) b) :
    (∀ c ∈ frees l, c < x.addr) ∧ ∀ c ∈ frees r, x.addr + x.bytes ≤ c := by
  obtain ⟨hl, hr⟩ := ht.around
  refine ⟨fun c hc => ?_, fun c hc => ?_⟩
  · obtain ⟨y, hy, -, rfl⟩ := mem_frees.mp hc
    have h1 := hl y hy
    have h2 := (ht.mem (List.mem_append_left _ hy)).2.1
    omega
  · obtain ⟨y, hy, -, rfl⟩ := mem_frees.mp hc
    exact hr y hy

theorem Shape.place (hs : Shape base start h (l ++ x :: r)) (hx : x.live = true) (hb : base < start) :
    ∃ p, h.place x.addr (h.turns start) h.freep = some p ∧ Upto h.ptr base (frees l) p ∧
      Path h.ptr p (frees r) base := by
  have hsorted := hs.sorted hb
  have hcircle := hs.circle
  have hfreep := hs.freep
  have hlen := Tiles.frees_length hs.tiles
  obtain ⟨hlow, hhigh⟩ := Tiles.frees_around hs.tiles
  have hxm := hs.tiles.mem (x := x) (by simp)
  rw [frees_append, frees_cons_live hx] at hsorted hcircle hfreep hlen
  rw [List.length_append] at hlen
  refine place_circle hcircle hsorted (fun c hc => ?_) (fun c hc => ?_) hfreep ?_
  · rcases List.mem_cons.mp hc with rfl | hc
    · omega
    · exact hlow c hc
  · have := hhigh c hc
    omega
  · unfold Heap.turns
    omega

end Place

/-! ## Joining blocks -/

/-- A block that is being freed: it is linked to what follows it and not yet to what comes before. Its upper
neighbour is not free. -/
structure Hole (base start : ℕ) (h : Heap) (l : List Block) (x : Block) (r : List Block) (p : ℕ) : Prop where
  tiles : Tiles Block.addr Block.bytes start (l ++ x :: r) h.top
  sizes : ∀ y ∈ l ++ x :: r, (h.size y.addr).toNat = y.units
  free : x.live = false
  lower : (l.map Block.live).IsChain fun a b => a = true ∨ b = true
  upper : (false :: r.map Block.live).IsChain fun a b => a = true ∨ b = true
  front : Upto h.ptr base (frees l) p
  back : Path h.ptr x.addr (frees r) base
  base_size : h.size base = 0

section Join
variable {base start p : ℕ} {h : Heap} {l r : List Block} {x : Block}

theorem Tiles.addr_ne {a b : ℕ} (ht : Tiles Block.addr Block.bytes a (l ++ x :: r) b) {y : Block} (hy : y ∈ l ∨ y ∈ r) :
    y.addr ≠ x.addr := by
  obtain ⟨hl, hr⟩ := ht.around
  have hxm := ht.mem (x := x) (by simp)
  rcases hy with hy | hy
  · have h1 := hl y hy
    have h2 := (ht.mem (List.mem_append_left _ hy)).2.1
    omega
  · have := hr y hy
    omega

theorem Tiles.frees_ne {a b : ℕ} (ht : Tiles Block.addr Block.bytes a (l ++ x :: r) b) {c : ℕ}
    (hc : c ∈ frees l ∨ c ∈ frees r) : c ≠ x.addr := by
  have hxm := ht.mem (x := x) (by simp)
  obtain ⟨hl, hr⟩ := Tiles.frees_around ht
  rcases hc with hc | hc
  · have := hl c hc
    omega
  · have := hr c hc
    omega

theorem Path.next_ne_after {a b : ℕ} (ht : Tiles Block.addr Block.bytes a (l ++ x :: r) b) (hb : base < a)
    (hp : Path h.ptr p (frees r) base) (hr : (false :: r.map Block.live).IsChain fun a b => a = true ∨ b = true) :
    h.ptr p ≠ x.addr + x.bytes := by
  have hxm := ht.mem (x := x) (by simp)
  cases hf : frees r with
  | nil =>
    rw [hf] at hp
    have hnext : h.ptr p = base := hp
    omega
  | cons c cs =>
    rw [hf] at hp
    rw [hp.1]
    cases r with
    | nil => cases hf
    | cons y r =>
      have hy : y.live = true := by simpa using (List.isChain_cons_cons.mp hr).1
      rw [frees_cons_live hy] at hf
      have hl' : l ++ x :: y :: r = (l ++ [x]) ++ y :: r := by simp
      rw [hl'] at ht
      have hc := (Tiles.frees_around ht).2 c (by rw [hf]; exact List.mem_cons_self)
      have hxy := ht.around.1 x (by simp)
      have hym := ht.mem (x := y) (by simp)
      omega

theorem Shape.front_keep {next' : ℕ → ℕ} (hs : Shape base start h (l ++ x :: r)) (hb : base < start)
    (hu : Upto h.ptr base (frees l) p) (hn : ∀ c, c ≠ x.addr → next' c = h.ptr c) : Upto next' base (frees l) p := by
  have hsorted := hs.sorted hb
  rw [frees_append] at hsorted
  have hnodup : (base :: frees l).Nodup :=
    (hsorted.sublist ((List.sublist_append_left _ _).cons_cons base)).imp fun h => h.ne
  refine hu.congr hnodup fun c hc _ => hn c ?_
  rcases List.mem_cons.mp hc with rfl | hc
  · have := hs.tiles.mem (x := x) (by simp)
    omega
  · exact Tiles.frees_ne hs.tiles (.inl hc)

theorem Shape.after_eq (hs : Shape base start h (l ++ x :: r)) : h.after x.addr = x.addr + x.bytes := by
  rw [Heap.after, hs.sizes x (by simp), Block.bytes]

theorem Shape.joinUpper_live (hs : Shape base start h (l ++ x :: r)) (hb : base < start)
    (hu : Upto h.ptr base (frees l) p) (hp : Path h.ptr p (frees r) base)
    (hr : (false :: r.map Block.live).IsChain fun a b => a = true ∨ b = true) :
    Hole base start (h.joinUpper x.addr p) l x.freed r p := by
  have hne := Path.next_ne_after hs.tiles hb hp hr
  have hlower := hs.apart
  rw [List.map_append] at hlower
  rw [Heap.joinUpper, if_neg (hs.after_eq ▸ hne.symm)]
  refine ⟨?_, fun y hy => ?_, rfl, hlower.left_of_append, hr,
    hs.front_keep hb hu fun c hc => update_of_ne hc _ _, ?_, hs.base_size⟩
  · have ht := hs.tiles
    rw [tiles_append] at ht ⊢
    exact ht
  · rcases List.mem_append.mp hy with hy | hy
    · exact hs.sizes y (List.mem_append_left _ hy)
    · rcases List.mem_cons.mp hy with rfl | hy
      · exact hs.sizes x (by simp)
      · exact hs.sizes y (by simp [hy])
  · refine hp.restart (update_self _ _ _) fun c hc => ?_
    exact update_of_ne (Tiles.frees_ne hs.tiles (.inr hc)) _ _

theorem toNat_add_size {a b : BitVec 32} {m n : ℕ} (ha : a.toNat = m) (hb : b.toNat = n) (hlt : m + n < 2 ^ 32) :
    (a + b).toNat = m + n := by
  rw [BitVec.toNat_add, ha, hb, Nat.mod_eq_of_lt hlt]

theorem Shape.joinUpper_free {y : Block} (hs : Shape base start h (l ++ x :: y :: r)) (hy : y.live = false)
    (hb : base < start) (htop : h.top < start + HEADER * 2 ^ 32) (hu : Upto h.ptr base (frees l) p)
    (hp : Path h.ptr p (frees (y :: r)) base) :
    Hole base start (h.joinUpper x.addr p) l ⟨x.addr, x.units + y.units, false⟩ r p := by
  obtain ⟨c, htl, hx, hxpos, hy', hypos, htr⟩ := tiles_append.mp hs.tiles
  rw [frees_cons_free hy] at hp
  have hsum : x.units + y.units < 2 ^ 32 := by
    have := htl.le
    have := htr.le
    unfold Block.bytes HEADER at *
    omega
  have hnext : h.ptr p = y.addr := hp.1
  have hxs := hs.sizes x (by simp)
  have hys := hs.sizes y (by simp)
  have hyx : y.addr ≠ x.addr := Tiles.addr_ne hs.tiles (.inr List.mem_cons_self)
  have hlower := hs.apart
  rw [List.map_append, List.map_cons, List.map_cons, hy] at hlower
  rw [Heap.joinUpper, if_pos (by rw [hs.after_eq, hnext, hy', hx]), hnext]
  refine ⟨?_, fun z hz => ?_, rfl, hlower.left_of_append, hlower.right_of_append.tail,
    hs.front_keep hb hu fun c hc => update_of_ne hc _ _, ?_, ?_⟩
  · refine tiles_append.mpr ⟨c, htl, hx, ?_, ?_⟩
    · simp only [Block.bytes] at hxpos ⊢
      rw [Nat.mul_add]
      omega
    · rw [Nat.add_assoc, Block.bytes, Block.bytes, ← Nat.mul_add] at htr
      exact htr
  · have hz' : z = ⟨x.addr, x.units + y.units, false⟩ ∨ z ∈ l ∨ z ∈ r := by
      simpa [or_left_comm] using hz
    simp only [Heap.setPtr, Heap.setSize, update_apply]
    rcases hz' with rfl | hz'
    · rw [if_pos rfl]
      exact toNat_add_size hxs hys hsum
    · have hm : z ∈ l ∨ z ∈ y :: r := hz'.imp_right (List.mem_cons_of_mem y)
      rw [if_neg (Tiles.addr_ne hs.tiles hm)]
      exact hs.sizes z (by rcases hz' with hz' | hz' <;> simp [hz'])
  · refine hp.2.restart (update_self _ _ _) fun c hc => ?_
    refine update_of_ne (Tiles.frees_ne hs.tiles (.inr ?_)) _ _
    rw [frees_cons_free hy]
    exact List.mem_cons_of_mem _ hc
  · have hbase : base ≠ x.addr := by
      have := hs.tiles.mem (x := x) (by simp)
      omega
    exact (update_of_ne hbase _ _).trans hs.base_size

theorem Shape.joinUpper (hs : Shape base start h (l ++ x :: r)) (hx : x.live = true) (hb : base < start)
    (htop : h.top < start + HEADER * 2 ^ 32) (hu : Upto h.ptr base (frees l) p) (hp : Path h.ptr p (frees r) base) :
    ∃ x' r', Hole base start (h.joinUpper x.addr p) l x' r' p ∧ x'.addr = x.addr ∧ x.units ≤ x'.units ∧
      lives r' = lives r ∧ (frees r').length ≤ (frees r).length := by
  have hupper := hs.apart
  rw [List.map_append, List.map_cons, hx] at hupper
  cases r with
  | nil => exact ⟨x.freed, [], hs.joinUpper_live hb hu hp (by simp), rfl, le_rfl, rfl, le_rfl⟩
  | cons y r =>
    cases hy : y.live with
    | true =>
      refine ⟨x.freed, y :: r, hs.joinUpper_live hb hu hp ?_, rfl, le_rfl, rfl, le_rfl⟩
      have hchain := hupper.right_of_append.tail
      rw [List.tail_cons, List.map_cons] at hchain
      exact List.isChain_cons_cons.mpr ⟨.inr hy, hchain⟩
    | false =>
      refine ⟨_, r, hs.joinUpper_free hy hb htop hu hp, rfl, Nat.le_add_right _ _, by simp [lives, hy], ?_⟩
      rw [frees_cons_free hy, List.length_cons]
      exact Nat.le_succ _

theorem Hole.after_ne (hs : Hole base start h l x r p) (hb : base < start)
    (hl : (l.map Block.live ++ [false]).IsChain fun a b => a = true ∨ b = true) : h.after p ≠ x.addr := by
  have hx := hs.tiles.mem (x := x) (by simp)
  rcases List.mem_cons.mp hs.front.mem with rfl | hp
  · have hsize : (h.size p).toNat = 0 := congrArg BitVec.toNat hs.base_size
    rw [Heap.after, hsize]
    omega
  obtain ⟨y, hy, hyf, rfl⟩ := mem_frees.mp hp
  rw [Heap.after, hs.sizes y (List.mem_append_left _ hy)]
  rcases List.eq_nil_or_concat l with rfl | ⟨l', z, rfl⟩
  · simp at hy
  rw [List.concat_eq_append] at *
  -- `z` lies between the two
  have hz : z.live = true := by
    rw [List.map_append, List.append_assoc] at hl
    simpa using hl.right_of_append
  have hyl : y ∈ l' := by
    rcases List.mem_append.mp hy with hy | hy
    · exact hy
    · obtain rfl := List.mem_singleton.mp hy
      rw [hz] at hyf
      cases hyf
  have ht := hs.tiles
  rw [List.append_assoc, List.singleton_append] at ht
  have h1 := ht.around.1 y hyl
  have h2 := ht.around.2 x List.mem_cons_self
  have h3 := (ht.mem (x := z) (by simp)).2.1
  unfold Block.bytes at h1
  omega

theorem Hole.sorted (hs : Hole base start h l x r p) (hb : base < start) :
    (base :: (frees l ++ x.addr :: frees r)).Pairwise (· < ·) := by
  rw [← frees_cons_free hs.free, ← frees_append]
  exact List.pairwise_cons.mpr
    ⟨fun _ ha => hb.trans_le (Tiles.frees_bounds hs.tiles ha).1, Tiles.frees_sorted hs.tiles⟩

theorem Hole.joinLower_live (hs : Hole base start h l x r p) (hb : base < start)
    (hl : (l.map Block.live ++ [false]).IsChain fun a b => a = true ∨ b = true) :
    Shape base start { h.joinLower x.addr p with freep := p } (l ++ x :: r) := by
  have hsorted := (hs.sorted hb).imp fun h => h.ne
  rw [← List.cons_append, List.pairwise_append] at hsorted
  have hfrees : frees (l ++ x :: r) = frees l ++ x.addr :: frees r := by rw [frees_append, frees_cons_free hs.free]
  have hpmem := hs.front.mem
  rw [Heap.joinLower, if_neg (hs.after_ne hb hl)]
  refine ⟨hs.tiles, hs.sizes, ?_, ?_, hs.base_size, ?_⟩
  · rw [List.map_append, List.map_cons, hs.free]
    exact List.isChain_split.mpr ⟨hl, hs.upper⟩
  · rw [hfrees]
    refine (hs.front.congr hsorted.1 fun c _ hc => update_of_ne hc _ _).path ⟨update_self _ _ _, ?_⟩
    exact hs.back.congr fun c hc => update_of_ne (hsorted.2.2 p hpmem c hc).symm _ _
  · rw [hfrees, ← List.cons_append]
    exact List.mem_append_left _ hpmem

theorem Hole.joinLower_free {z : Block} (hs : Hole base start h (l ++ [z]) x r p) (hz : z.live = false)
    (hb : base < start) (htop : h.top < start + HEADER * 2 ^ 32) :
    Shape base start { h.joinLower x.addr p with freep := p } (l ++ ⟨z.addr, z.units + x.units, false⟩ :: r) := by
  have ht := hs.tiles
  rw [List.append_assoc, List.singleton_append] at ht
  obtain ⟨c, htl, hza, hzpos, hxa, hxpos, htr⟩ := tiles_append.mp ht
  have hsum : z.units + x.units < 2 ^ 32 := by
    have := htl.le
    have := htr.le
    unfold Block.bytes HEADER at *
    omega
  have hfront := hs.front
  rw [frees_append, frees_cons_free hz] at hfront
  obtain ⟨rfl, hfirst⟩ := hfront.concat
  have hzs := hs.sizes z (by simp)
  have hxs := hs.sizes x (by simp)
  have hbase : base ≠ z.addr := by
    have := ht.mem (x := z) (by simp)
    omega
  have hlower := hs.lower
  rw [List.map_append, List.map_singleton, hz] at hlower
  have hfrees : frees (l ++ (⟨z.addr, z.units + x.units, false⟩ : Block) :: r) = frees l ++ z.addr :: frees r := by
    rw [frees_append, frees_cons_free rfl]
  rw [Heap.joinLower, if_pos (by rw [Heap.after, hzs, hxa, hza, Block.bytes])]
  refine ⟨?_, fun y hy => ?_, ?_, ?_, ?_, ?_⟩
  · refine tiles_append.mpr ⟨c, htl, hza, ?_, ?_⟩
    · simp only [Block.bytes] at hzpos ⊢
      rw [Nat.mul_add]
      omega
    · rw [Nat.add_assoc, Block.bytes, Block.bytes, ← Nat.mul_add] at htr
      exact htr
  · have hy' : y = ⟨z.addr, z.units + x.units, false⟩ ∨ y ∈ l ∨ y ∈ r := by
      simpa [or_left_comm] using hy
    simp only [Heap.setPtr, Heap.setSize, update_apply]
    rcases hy' with rfl | hy'
    · rw [if_pos rfl]
      exact toNat_add_size hzs hxs hsum
    · have hm : y ∈ l ∨ y ∈ x :: r := hy'.imp_right (List.mem_cons_of_mem x)
      rw [if_neg (Tiles.addr_ne ht hm)]
      exact hs.sizes y (by rcases hy' with hy' | hy' <;> simp [hy'])
  · rw [List.map_append, List.map_cons]
    exact List.isChain_split.mpr ⟨hlower, hs.upper⟩
  · rw [hfrees]
    refine path_append.mpr ⟨hfirst.congr fun c hc => update_of_ne ?_ _ _,
      hs.back.restart (update_self _ _ _) fun c hc => update_of_ne ?_ _ _⟩
    · rcases List.mem_cons.mp hc with rfl | hc
      · exact hbase
      · exact Tiles.frees_ne ht (.inl hc)
    · refine Tiles.frees_ne ht (.inr ?_)
      rw [frees_cons_free hs.free]
      exact List.mem_cons_of_mem _ hc
  · exact (update_of_ne hbase _ _).trans hs.base_size
  · rw [hfrees]
    simp

/-- What is left after a block `x` that was between `l` and `r` has been freed. -/
structure Freed (base start : ℕ) (h : Heap) (l : List Block) (x : Block) (r bs : List Block) : Prop where
  shape : Shape base start h bs
  lives_eq : lives bs = lives l ++ lives r
  fits : ∃ z ∈ bs, z.live = false ∧ x.units ≤ z.units
  count : (frees bs).length ≤ (frees l).length + (frees r).length + 1

theorem lives_append (l r : List Block) : lives (l ++ r) = lives l ++ lives r := List.filter_append _ _

theorem lives_cons_free {x : Block} (hx : x.live = false) (r : List Block) : lives (x :: r) = lives r := by
  simp [lives, hx]

theorem lives_cons_live {x : Block} (hx : x.live = true) (r : List Block) : lives (x :: r) = x :: lives r := by
  simp [lives, hx]

theorem Hole.joinLower (hs : Hole base start h l x r p) (hb : base < start) (htop : h.top < start + HEADER * 2 ^ 32) :
    ∃ bs, Freed base start { h.joinLower x.addr p with freep := p } l x r bs := by
  have hlives : ∀ l y, y.live = false → lives (l ++ y :: r) = lives l ++ lives r := by
    intro l y hy
    rw [lives_append, lives_cons_free hy]
  have hcount : ∀ l y, y.live = false → (frees (l ++ y :: r)).length = (frees l).length + (frees r).length + 1 := by
    intro l y hy
    rw [frees_append, frees_cons_free hy, List.length_append, List.length_cons, Nat.add_assoc]
  rcases List.eq_nil_or_concat l with rfl | ⟨l, z, rfl⟩
  · exact ⟨_, hs.joinLower_live hb (by simp), hlives _ x hs.free, ⟨x, by simp, hs.free, le_rfl⟩,
      (hcount _ x hs.free).le⟩
  rw [List.concat_eq_append] at *
  cases hz : z.live with
  | true =>
    have hlower := hs.lower
    rw [List.map_append, List.map_singleton, hz] at hlower
    refine ⟨_, hs.joinLower_live hb ?_, hlives _ x hs.free, ⟨x, by simp, hs.free, le_rfl⟩, (hcount _ x hs.free).le⟩
    rw [List.map_append, List.map_singleton, hz, List.append_assoc, List.singleton_append]
    exact List.isChain_split.mpr ⟨hlower, by simp⟩
  | false =>
    refine ⟨_, hs.joinLower_free hz hb htop, ?_, ⟨_, List.mem_append_right _ List.mem_cons_self, rfl, ?_⟩, ?_⟩
    · rw [hlives _ _ rfl, lives_append, lives_cons_free hz]
      simp [lives]
    · exact Nat.le_add_left _ _
    · rw [hcount _ _ rfl, frees_append, List.length_append]
      omega

end Join

section Free
variable {base start : ℕ} {h : Heap} {l r : List Block} {x : Block}

theorem Heap.joinUpper_top (h : Heap) (bp p : ℕ) : (h.joinUpper bp p).top = h.top := by
  unfold Heap.joinUpper
  split <;> rfl

theorem Heap.joinLower_top (h : Heap) (bp p : ℕ) : (h.joinLower bp p).top = h.top := by
  unfold Heap.joinLower
  split <;> rfl

theorem Shape.free (hs : Shape base start h (l ++ x :: r)) (hx : x.live = true) (hb : base < start)
    (htop : h.top < start + HEADER * 2 ^ 32) :
    ∃ h' bs, h.free start (x.addr + HEADER) = some h' ∧ h'.top = h.top ∧ Freed base start h' l x r bs := by
  obtain ⟨p, hplace, hu, hp⟩ := hs.place hx hb
  obtain ⟨x', r', hole, haddr, hunits, hlives, hcount⟩ := hs.joinUpper hx hb htop hu hp
  have htop' : (h.joinUpper x.addr p).top = h.top := h.joinUpper_top _ _
  obtain ⟨bs, hf⟩ := hole.joinLower hb (htop'.symm ▸ htop)
  rw [haddr] at hf
  refine ⟨_, bs, ?_, ?_, hf.shape, hf.lives_eq.trans (hlives ▸ rfl), ?_, ?_⟩
  · rw [Heap.free, Nat.add_sub_cancel, hplace]
    rfl
  · exact ((h.joinUpper x.addr p).joinLower_top _ _).trans htop'
  · obtain ⟨z, hz, hfree, hle⟩ := hf.fits
    exact ⟨z, hz, hfree, hunits.trans hle⟩
  · have := hf.count
    omega

end Free

/-! ## Handing out a block -/

/-- What is left after `units` have been handed out at `a` from the block between `l` and `r`. -/
structure Taken (base start : ℕ) (h : Heap) (l r : List Block) (a units : ℕ) (bs : List Block) : Prop where
  shape : Shape base start h bs
  lives_eq : lives bs = lives l ++ ⟨a, units, true⟩ :: lives r

section Take
variable {base start p : ℕ} {h : Heap} {l r : List Block} {y : Block} {nunits : BitVec 32}

theorem isChain_live {b : Bool} {t : List Bool} (h : (b :: t).IsChain fun a b => a = true ∨ b = true) :
    (true :: t).IsChain fun a b => a = true ∨ b = true := by
  cases t with
  | nil => exact List.isChain_singleton _
  | cons c t => exact List.isChain_cons_cons.mpr ⟨.inl rfl, h.tail⟩

theorem isChain_set_live {s t : List Bool} (h : (s ++ false :: t).IsChain fun a b => a = true ∨ b = true) :
    (s ++ true :: t).IsChain fun a b => a = true ∨ b = true := by
  obtain ⟨hs, ht⟩ := List.isChain_split.mp h
  refine List.isChain_split.mpr ⟨?_, isChain_live ht⟩
  exact List.isChain_append.mpr ⟨hs.left_of_append, List.isChain_singleton _, by simp⟩

theorem Shape.take_whole (hs : Shape base start h (l ++ y :: r)) (hy : y.live = false) (hb : base < start)
    (hu : Upto h.ptr base (frees l) p) :
    Taken base start { h.setPtr p (h.ptr y.addr) with freep := p } l r y.addr y.units
      (l ++ { y with live := true } :: r) := by
  have hsorted := (hs.sorted hb).imp fun h => h.ne
  have hcircle := hs.circle
  rw [frees_append, frees_cons_free hy] at hsorted hcircle
  rw [← List.cons_append, List.pairwise_append] at hsorted
  have hfrees : frees (l ++ ({ y with live := true } : Block) :: r) = frees l ++ frees r := by
    rw [frees_append, frees_cons_live rfl]
  refine ⟨⟨?_, fun z hz => ?_, ?_, ?_, hs.base_size, ?_⟩, ?_⟩
  · have ht := hs.tiles
    rw [tiles_append] at ht ⊢
    exact ht
  · rcases List.mem_append.mp hz with hz | hz
    · exact hs.sizes z (List.mem_append_left _ hz)
    · rcases List.mem_cons.mp hz with rfl | hz
      · exact hs.sizes y (by simp)
      · exact hs.sizes z (by simp [hz])
  · have hapart := hs.apart
    rw [List.map_append, List.map_cons, hy] at hapart
    rw [List.map_append, List.map_cons]
    exact isChain_set_live hapart
  · rw [hfrees]
    refine (hu.congr hsorted.1 fun c _ hc => update_of_ne hc _ _).path ?_
    refine (path_append.mp hcircle).2.restart (update_self _ _ _) fun c hc => ?_
    exact update_of_ne (hsorted.2.2 p hu.mem c (List.mem_cons_of_mem _ hc)).symm _ _
  · rw [hfrees, ← List.cons_append]
    exact List.mem_append_left _ hu.mem
  · rw [lives_append, lives_cons_live rfl]

theorem Shape.take_tail {n : ℕ} (hs : Shape base start h (l ++ y :: r)) (hy : y.live = false) (hb : base < start)
    (hu : Upto h.ptr base (frees l) p) (hn : nunits.toNat = n) (hpos : 0 < n) (hlt : n < y.units) :
    Taken base start
      { (h.setSize y.addr (h.size y.addr - nunits)).setSize (y.addr + HEADER * (y.units - n)) nunits with freep := p }
      l r (y.addr + HEADER * (y.units - n)) n
      (l ++ ⟨y.addr, y.units - n, false⟩ :: ⟨y.addr + HEADER * (y.units - n), n, true⟩ :: r) := by
  obtain ⟨c, htl, hya, hypos, htr⟩ := tiles_append.mp hs.tiles
  have hbase : base < y.addr := by
    have := htl.le
    omega
  have hys := hs.sizes y (by simp)
  have hk : 0 < HEADER * (y.units - n) := Nat.mul_pos (by decide) (by omega)
  have hsum : HEADER * (y.units - n) + HEADER * n = y.bytes := by
    rw [← Nat.mul_add, Nat.sub_add_cancel hlt.le, Block.bytes]
  have hapart := hs.apart
  rw [List.map_append, List.map_cons, hy] at hapart
  obtain ⟨hlower, hupper⟩ := List.isChain_split.mp hapart
  have hcircle := hs.circle
  rw [frees_append, frees_cons_free hy] at hcircle
  refine ⟨⟨?_, fun z hz => ?_, ?_, ?_, ?_, ?_⟩, ?_⟩
  · refine tiles_append.mpr ⟨c, htl, hya, hk, congrArg (· + _) hya, Nat.mul_pos (by decide) hpos, ?_⟩
    simp only [Block.bytes]
    rw [Nat.add_assoc, hsum]
    exact htr
  · have hz' : z = ⟨y.addr, y.units - n, false⟩ ∨ z = ⟨y.addr + HEADER * (y.units - n), n, true⟩ ∨ z ∈ l ∨ z ∈ r := by
      simpa [or_left_comm] using hz
    simp only [Heap.setSize, update_apply]
    rcases hz' with rfl | rfl | hz'
    · rw [if_neg (Nat.ne_of_lt (Nat.lt_add_of_pos_right hk)), if_pos rfl, BitVec.toNat_sub_of_le (by bv_omega), hys, hn]
    · rw [if_pos rfl]
      exact hn
    · obtain ⟨hbefore, hafter⟩ := hs.tiles.around
      have hne : z.addr ≠ y.addr + HEADER * (y.units - n) := by
        have := Nat.mul_pos (show 0 < HEADER by decide) hpos
        rcases hz' with hz' | hz'
        · have h1 := hbefore z hz'
          have h2 := (hs.tiles.mem (List.mem_append_left _ hz')).2.1
          omega
        · have := hafter z hz'
          omega
      rw [if_neg hne, if_neg (Tiles.addr_ne hs.tiles hz')]
      exact hs.sizes z (by rcases hz' with hz' | hz' <;> simp [hz'])
  · rw [List.map_append, List.map_cons, List.map_cons]
    exact List.isChain_split.mpr ⟨hlower, List.isChain_cons_cons.mpr ⟨.inr rfl, isChain_live hupper⟩⟩
  · rw [frees_append, frees_cons_free rfl, frees_cons_live rfl]
    exact hcircle
  · simp only [Heap.setSize, update_apply]
    rw [if_neg (by omega), if_neg hbase.ne]
    exact hs.base_size
  · rw [frees_append, ← List.cons_append]
    exact List.mem_append_left _ hu.mem
  · rw [lives_append, lives_cons_free rfl, lives_cons_live rfl]

theorem Shape.take (hs : Shape base start h (l ++ y :: r)) (hy : y.live = false) (hb : base < start)
    (hu : Upto h.ptr base (frees l) p) (hpos : 0 < nunits.toNat) (hfit : nunits ≤ h.size y.addr) :
    ∃ a bs, (h.take nunits p y.addr).2 = a + HEADER ∧ (h.take nunits p y.addr).1.top = h.top ∧
      Taken base start (h.take nunits p y.addr).1 l r a nunits.toNat bs := by
  have hys := hs.sizes y (by simp)
  unfold Heap.take
  split
  case isTrue he =>
    have hw := hs.take_whole hy hb hu
    rw [← hys, he] at hw
    exact ⟨y.addr, _, rfl, rfl, hw⟩
  case isFalse hne =>
    have hlt : nunits.toNat < y.units := by
      rw [← hys]
      bv_omega
    have hafter : (h.setSize y.addr (h.size y.addr - nunits)).after y.addr
        = y.addr + HEADER * (y.units - nunits.toNat) := by
      simp only [Heap.after, Heap.setSize, update_self]
      rw [BitVec.toNat_sub_of_le hfit, hys]
    dsimp only
    rw [hafter]
    exact ⟨_, _, rfl, rfl, hs.take_tail hy hb hu rfl hpos hlt⟩

end Take

/-! ## The loop of `malloc` -/

/-- The free blocks at `xs`, in address order, are linked from `base` on and back to it. -/
structure Linked (base : ℕ) (h : Heap) (xs : List ℕ) : Prop where
  circle : Path h.ptr base xs base
  sorted : (base :: xs).Pairwise (· < ·)
  base_size : h.size base = 0
  freep : h.freep ∈ base :: xs

section Search
variable {τ : Type} {base start n : ℕ} {h : Heap} {P : Process τ} {xs : List ℕ} {nunits : BitVec 32} (B : Brk τ)

theorem search_skip (start : ℕ) {a q : ℕ} (hp : Path P.heap.ptr a xs q)
    (hxs : ∀ b ∈ xs, ¬ nunits ≤ P.heap.size b ∧ b ≠ P.heap.freep) :
    ∃ p, Upto P.heap.ptr a xs p ∧ P.heap.ptr p = q ∧ ∀ k,
      B.search start nunits (k + xs.length) a (P.heap.ptr a) P = B.search start nunits k p q P := by
  induction xs generalizing a with
  | nil => exact ⟨a, .inl ⟨rfl, rfl⟩, hp, fun k => by rw [show P.heap.ptr a = q from hp]; rfl⟩
  | cons x xs ih =>
    obtain ⟨p, hu, hnext, hsearch⟩ := ih hp.2 fun b hb => hxs b (List.mem_cons_of_mem _ hb)
    obtain ⟨hsmall, hne⟩ := hxs x List.mem_cons_self
    refine ⟨p, hu.cons hp.1, hnext, fun k => ?_⟩
    rw [hp.1, List.length_cons, ← Nat.add_assoc, Brk.search, if_neg hsmall, if_neg hne]
    exact hsearch k

theorem Linked.freep_ne_zero (hl : Linked base h xs) (h0 : 0 < base) : h.freep ≠ 0 := by
  rcases List.mem_cons.mp hl.freep with he | he
  · omega
  · have := (List.pairwise_cons.mp hl.sorted).1 _ he
    omega

theorem Linked.around (hl : Linked base h xs) :
    ∃ ys, Path h.ptr h.freep ys h.freep ∧ (h.freep :: ys).Perm (base :: xs) ∧ h.freep ∉ ys ∧ ys.length = xs.length := by
  obtain ⟨ys, hp, hperm⟩ := hl.circle.rotate hl.freep
  have hnodup := hperm.nodup_iff.mpr (hl.sorted.imp fun h => h.ne)
  have hlen := hperm.length_eq
  rw [List.length_cons, List.length_cons] at hlen
  exact ⟨ys, hp, hperm, (List.nodup_cons.mp hnodup).1, by omega⟩

theorem Linked.search_fit (hl : Linked base P.heap xs) (start : ℕ) (hfit : ∃ a ∈ base :: xs, nunits ≤ P.heap.size a)
    (hn : xs.length < n) :
    ∃ p q, p ∈ base :: xs ∧ q ∈ base :: xs ∧ P.heap.ptr p = q ∧ nunits ≤ P.heap.size q ∧
      B.search start nunits n P.heap.freep (P.heap.ptr P.heap.freep) P =
        some (⟨(P.heap.take nunits p q).1, P.mem⟩, (P.heap.take nunits p q).2) := by
  obtain ⟨ys, hp, hperm, hnot, hlen⟩ := hl.around
  have hmem : ∀ c, c ∈ ys ++ [P.heap.freep] ↔ c ∈ base :: xs := by
    intro c
    rw [← hperm.mem_iff]
    simp [or_comm]
  obtain ⟨a, ha, hfit⟩ := hfit
  obtain ⟨q, hq⟩ : ∃ q, (ys ++ [P.heap.freep]).find? (fun c => decide (nunits ≤ P.heap.size c)) = some q :=
    Option.isSome_iff_exists.mp (List.find?_isSome.mpr ⟨a, (hmem a).mpr ha, decide_eq_true hfit⟩)
  obtain ⟨hqfit, us, vs, heq, hus⟩ := List.find?_eq_some_iff_append.mp hq
  have hqfit : nunits ≤ P.heap.size q := of_decide_eq_true hqfit
  have husub : ∀ b ∈ us, b ∈ ys := by
    intro b hb
    rcases List.eq_nil_or_concat vs with rfl | ⟨vs, w, rfl⟩
    · obtain ⟨rfl, -⟩ := List.append_inj' heq rfl
      exact hb
    · rw [List.concat_eq_append, ← List.cons_append, ← List.append_assoc] at heq
      obtain ⟨rfl, -⟩ := List.append_inj' heq rfl
      exact List.mem_append_left _ hb
  have hsmall : ∀ b ∈ us, ¬ nunits ≤ P.heap.size b ∧ b ≠ P.heap.freep :=
    fun b hb => ⟨by simpa using hus b hb, fun he => hnot (he ▸ husub b hb)⟩
  obtain ⟨p, hu, hnext, hsearch⟩ := search_skip B start (hp.before heq) hsmall
  have hpmem : p ∈ base :: xs := by
    refine hperm.mem_iff.mp ?_
    rcases List.mem_cons.mp hu.mem with rfl | hpu
    · exact List.mem_cons_self
    · exact List.mem_cons_of_mem _ (husub p hpu)
  refine ⟨p, q, hpmem, (hmem q).mp (heq ▸ by simp), hnext, hqfit, ?_⟩
  have hlen' := congrArg List.length heq
  rw [List.length_append, List.length_append, List.length_singleton, List.length_cons] at hlen'
  obtain ⟨k, rfl⟩ : ∃ k, n = k + 1 + us.length := ⟨n - us.length - 1, by omega⟩
  rw [hsearch, Brk.search, if_pos hqfit]

theorem Linked.search_none (hl : Linked base P.heap xs) (start n : ℕ) (hsmall : ∀ a ∈ base :: xs, ¬ nunits ≤ P.heap.size
    a) :
    B.search start nunits (n + 1 + xs.length) P.heap.freep (P.heap.ptr P.heap.freep) P =
      (B.morecore start nunits P).bind fun (P, p) =>
        if p = 0 then some (P, 0) else B.search start nunits n p (P.heap.ptr p) P := by
  obtain ⟨ys, hp, hperm, hnot, hlen⟩ := hl.around
  obtain ⟨p, -, -, hsearch⟩ := search_skip B start hp fun b hb =>
    ⟨hsmall b (hperm.mem_iff.mp (List.mem_cons_of_mem _ hb)), fun he => hnot (he ▸ hb)⟩
  rw [← hlen, hsearch, Brk.search, if_neg (hsmall _ hl.freep), if_pos rfl]
  rfl

end Search

section Blocks
variable {base start n : ℕ} {h : Heap} {bs : List Block} {nunits : BitVec 32}

theorem Shape.linked (hs : Shape base start h bs) (hb : base < start) : Linked base h (frees bs) :=
  ⟨hs.circle, hs.sorted hb, hs.base_size, hs.freep⟩

theorem Shape.search_fit (B : Brk Unit) (hs : Shape base start h bs) (hb : base < start) (hpos : 0 < nunits.toNat)
    (hfit : ∃ a ∈ frees bs, nunits ≤ h.size a) (hn : (frees bs).length < n) :
    ∃ l y r p, bs = l ++ y :: r ∧ y.live = false ∧ nunits ≤ h.size y.addr ∧ Upto h.ptr base (frees l) p ∧
      B.search start nunits n h.freep (h.ptr h.freep) ⟨h, ()⟩ =
        some (⟨(h.take nunits p y.addr).1, ()⟩, (h.take nunits p y.addr).2) := by
  obtain ⟨a, ha, hfit⟩ := hfit
  obtain ⟨p, q, hpmem, hqmem, hnext, hqfit, hsearch⟩ := (hs.linked hb).search_fit (P := ⟨h, ()⟩) B start
    ⟨a, List.mem_cons_of_mem _ ha, hfit⟩ hn
  dsimp only at hnext hqfit hsearch
  -- the static header is too small, so `q` is a block
  have hqbase : q ≠ base := by
    rintro rfl
    rw [hs.base_size] at hqfit
    bv_omega
  obtain ⟨y, hy, hyf, rfl⟩ := mem_frees.mp ((List.mem_cons.mp hqmem).resolve_left hqbase)
  obtain ⟨l, r, rfl⟩ := List.append_of_mem hy
  -- and the one before it in the list is the only one that leads to it
  have hcircle := hs.circle
  rw [frees_append, frees_cons_free hyf] at hcircle
  obtain ⟨p', hu', hpath⟩ := hcircle.split
  have hpmem' : p' ∈ base :: frees (l ++ y :: r) := by
    rw [frees_append, ← List.cons_append]
    exact List.mem_append_left _ hu'.mem
  have hpp : p' = p :=
    hs.circle.next_inj ((hs.sorted hb).imp fun h => h.ne) hpmem' hpmem (hpath.1.trans hnext.symm)
  exact ⟨l, y, r, p, rfl, hyf, hqfit, hpp ▸ hu', hsearch⟩

theorem Shape.search_none (B : Brk Unit) (hs : Shape base start h bs) (hb : base < start) (hpos : 0 < nunits.toNat)
    (hsmall : ∀ a ∈ frees bs, ¬ nunits ≤ h.size a) :
    B.search start nunits (n + 1 + (frees bs).length) h.freep (h.ptr h.freep) ⟨h, ()⟩ =
      (B.morecore start nunits ⟨h, ()⟩).bind fun (P, p) =>
        if p = 0 then some (P, 0) else B.search start nunits n p (P.heap.ptr p) P := by
  refine (hs.linked hb).search_none (P := ⟨h, ()⟩) B start n fun a ha => ?_
  rcases List.mem_cons.mp ha with rfl | ha
  · change ¬ nunits ≤ h.size a
    rw [hs.base_size]
    bv_omega
  · exact hsmall a ha

end Blocks

/-! ## `malloc` -/

variable {base start : ℕ} {h : Heap} {bs : List Block} {nu nbytes : BitVec 32} {grant : Bool}

theorem unitsFor_toNat (nbytes : BitVec 32) :
    (Heap.unitsFor nbytes).toNat = (nbytes.toNat + HEADER - 1) / HEADER + 1 := by
  have := nbytes.isLt
  refine Nat.mod_eq_of_lt ?_
  unfold HEADER
  omega

theorem unitsFor_pos (nbytes : BitVec 32) : 0 < (Heap.unitsFor nbytes).toNat := by
  rw [unitsFor_toNat]
  exact Nat.succ_pos _

theorem le_unitsFor (nbytes : BitVec 32) : nbytes.toNat + HEADER ≤ HEADER * (Heap.unitsFor nbytes).toNat := by
  rw [unitsFor_toNat]
  unfold HEADER
  omega

theorem le_atLeast (nu : BitVec 32) : nu.toNat ≤ (Heap.atLeast nu).toNat := by
  unfold Heap.atLeast
  split <;> bv_omega

theorem toInt_request (hfits : nu.toNat * HEADER < 2 ^ 31) :
    (BitVec.ofNat 32 (nu.toNat * HEADER)).toInt = (nu.toNat * HEADER : ℕ) := by
  rw [BitVec.toInt_eq_toNat_of_lt, BitVec.toNat_ofNat, Nat.mod_eq_of_lt (by omega)]
  rw [BitVec.toNat_ofNat, Nat.mod_eq_of_lt (by omega)]
  omega

theorem sbrk_top (h : Heap) (hfits : nu.toNat * HEADER < 2 ^ 31) :
    ((h.top : ℤ) + (BitVec.ofNat 32 (nu.toNat * HEADER)).toInt).toNat = h.top + HEADER * nu.toNat := by
  rw [toInt_request hfits, Nat.mul_comm HEADER]
  exact Int.toNat_natCast _

theorem Shape.grow (hs : Shape base start h bs) (hb : base < start) (hpos : 0 < nu.toNat) :
    Shape base start (Heap.setSize { h with top := h.top + HEADER * nu.toNat } h.top nu)
      (bs ++ [⟨h.top, nu.toNat, true⟩]) := by
  have hbase : base ≠ h.top := (hb.trans_le hs.tiles.le).ne
  have hfrees : frees (bs ++ [⟨h.top, nu.toNat, true⟩]) = frees bs := by
    rw [frees_append, frees_cons_live rfl]
    exact List.append_nil _
  refine ⟨?_, fun x hx => ?_, ?_, ?_, ?_, ?_⟩
  · exact tiles_append.mpr ⟨h.top, hs.tiles, rfl, Nat.mul_pos (by decide) hpos, rfl⟩
  · rcases List.mem_append.mp hx with hx | hx
    · have hlt : x.addr ≠ h.top := by
        have := hs.tiles.mem hx
        omega
      rw [← hs.sizes x hx]
      exact congrArg BitVec.toNat (update_of_ne hlt _ _)
    · obtain rfl := List.mem_singleton.mp hx
      exact congrArg BitVec.toNat (update_self _ _ _)
  · rw [List.map_append]
    exact List.isChain_append.mpr ⟨hs.apart, List.isChain_singleton _, by simp⟩
  · rw [hfrees]
    exact hs.circle
  · exact (update_of_ne hbase _ _).trans hs.base_size
  · rw [hfrees]
    exact hs.freep

theorem Shape.morecore (hs : Shape base start h bs) (hb : base < start) (hpos : 0 < nu.toNat)
    (hfits : (Heap.atLeast nu).toNat * HEADER < 2 ^ 31)
    (htop : h.top + HEADER * (Heap.atLeast nu).toNat < start + HEADER * 2 ^ 32) :
    ∃ h' bs', (granting true).morecore start nu ⟨h, ()⟩ = some (⟨h', ()⟩, h'.freep) ∧ h'.top = h.top + HEADER *
      (Heap.atLeast nu).toNat ∧
      Shape base start h' bs' ∧ lives bs' = lives bs ∧ (frees bs').length ≤ (frees bs).length + 1 ∧
      ∃ a ∈ frees bs', nu ≤ h'.size a := by
  have hle := le_atLeast nu
  obtain ⟨h', bs', hfree, htop', hf⟩ := (hs.grow hb (hpos.trans_le hle)).free rfl hb htop
  refine ⟨h', bs', ?_, htop', hf.shape, by simpa [lives] using hf.lives_eq, ?_, ?_⟩
  · have hsbrk : (granting true).sbrk (BitVec.ofNat 32 ((Heap.atLeast nu).toNat * HEADER)) ⟨h, ()⟩ =
        some (⟨{ h with top := h.top + HEADER * (Heap.atLeast nu).toNat }, ()⟩, some h.top) := by
      rw [← sbrk_top h hfits]
      rfl
    rw [Brk.morecore, hsbrk]
    exact congrArg (Option.map fun h : Heap => ((⟨h, ()⟩ : Process Unit), h.freep)) hfree
  · simpa [frees] using hf.count
  · obtain ⟨z, hz, hfree, hunits⟩ := hf.fits
    refine ⟨z.addr, mem_frees.mpr ⟨z, hz, hfree, rfl⟩, ?_⟩
    rw [BitVec.le_def, hf.shape.sizes z hz]
    exact hle.trans hunits

/-- What `malloc` leaves: nothing is changed and it returns 0, or a block of `units` is handed out that lies
between those in `l` and those in `r`. -/
inductive Served (base start : ℕ) (bs : List Block) (units : ℕ) (h : Heap) : ℕ → Prop
  | none : Shape base start h bs → Served base start bs units h 0
  | some {a : ℕ} {l r bs' : List Block} : Taken base start h l r a units bs' → lives bs = lives l ++ lives r →
      Served base start bs units h (a + HEADER)

theorem Shape.search_serves {n : ℕ} (B : Brk Unit) (hs : Shape base start h bs) (hb : base < start)
    (hpos : 0 < nu.toNat) (hfit : ∃ a ∈ frees bs, nu ≤ h.size a) (hn : (frees bs).length < n) :
    ∃ h' a l r bs', B.search start nu n h.freep (h.ptr h.freep) ⟨h, ()⟩ = some (⟨h', ()⟩, a + HEADER) ∧ h'.top = h.top ∧
      Taken base start h' l r a nu.toNat bs' ∧ lives bs = lives l ++ lives r := by
  obtain ⟨l, y, r, p, rfl, hy, hle, hu, hsearch⟩ := hs.search_fit B hb hpos hfit hn
  obtain ⟨a, bs', ha, htop, ht⟩ := hs.take hy hb hu hpos hle
  refine ⟨_, a, l, r, bs', hsearch.trans (congrArg some (Prod.ext rfl ha)), htop, ht, ?_⟩
  rw [lives_append, lives_cons_free hy]

theorem Shape.malloc (grant : Bool) (hs : Shape base start h bs) (hb : base < start) (h0 : 0 < base)
    (hfits : (Heap.atLeast (Heap.unitsFor nbytes)).toNat * HEADER < 2 ^ 31)
    (htop : grant = true → h.top + HEADER * (Heap.atLeast (Heap.unitsFor nbytes)).toNat < start + HEADER * 2 ^ 32) :
    ∃ h' a, h.malloc base start grant nbytes = some (h', a) ∧
      (h'.top = h.top ∨ grant = true ∧ h'.top = h.top + HEADER * (Heap.atLeast (Heap.unitsFor nbytes)).toNat) ∧
      Served base start bs (Heap.unitsFor nbytes).toNat h' a := by
  have hpos := unitsFor_pos nbytes
  have hlen := Tiles.frees_length hs.tiles
  have hmalloc : (granting grant).malloc start base nbytes ⟨h, ()⟩ =
      (granting grant).search start (Heap.unitsFor nbytes) (2 * h.turns start) h.freep (h.ptr h.freep) ⟨h, ()⟩ := by
    rw [Brk.malloc, Heap.listed, if_neg ((hs.linked hb).freep_ne_zero h0)]
  rw [Heap.malloc, hmalloc]
  by_cases hfit : ∃ a ∈ frees bs, Heap.unitsFor nbytes ≤ h.size a
  · have hturns : (frees bs).length < 2 * h.turns start := by
      unfold Heap.turns
      omega
    obtain ⟨h', a, l, r, bs', hsearch, htop', ht, hlives⟩ := hs.search_serves (granting grant) hb hpos hfit hturns
    exact ⟨h', a + HEADER, congrArg (Option.map _) hsearch, .inl htop', .some ht hlives⟩
  have hnone : ∀ a ∈ frees bs, ¬ Heap.unitsFor nbytes ≤ h.size a := fun a ha hle => hfit ⟨a, ha, hle⟩
  -- the turns are enough for a second round, over a list that is at most one longer
  obtain ⟨n, hn, hturns⟩ : ∃ n, (frees bs).length + 1 < n ∧ 2 * h.turns start = n + 1 + (frees bs).length := by
    refine ⟨2 * h.turns start - (frees bs).length - 1, ?_, ?_⟩ <;> (unfold Heap.turns; omega)
  rw [hturns, hs.search_none _ hb hpos hnone]
  cases grant with
  | false => exact ⟨h, 0, rfl, .inl rfl, .none hs⟩
  | true =>
    obtain ⟨h', bs', hmore, htop', hs', hlives, hcount, hfit'⟩ := hs.morecore hb hpos hfits (htop rfl)
    obtain ⟨h'', a, l, r, bs'', hsearch, htop'', ht, hlives'⟩ :=
      hs'.search_serves (granting true) hb hpos hfit' (hcount.trans_lt hn)
    refine ⟨h'', a + HEADER, ?_, .inr ⟨rfl, htop''.trans htop'⟩, .some ht (hlives ▸ hlives')⟩
    rw [hmore, Option.bind_some]
    exact congrArg (Option.map _) ((if_neg ((hs'.linked hb).freep_ne_zero h0)).trans hsearch)

end Xv6Boot.User.Umalloc
