import Xv6Boot.Kernel.Vm

/-! # `vm.c`: user address spaces

The functions on the page table of a process, on the memory they run in. `none` is a panic, or a loop that does not end:
the loops over addresses are given a number of turns that is enough for every range that does not wrap.
-/

namespace Xv6Boot.Kernel
open ByteMemory Loop StringC Pages

def PTE_U : BitVec 64 := 16

def PTE_FLAGS (pte : BitVec 64) : BitVec 64 := pte &&& 0x3ff

def PGROUNDDOWN (a : Addr) : Addr := a &&& ~~~(BitVec.ofNat 64 PGSIZE - 1)

def TRAPFRAME : Addr := TRAMPOLINE - BitVec.ofNat 64 PGSIZE

/-! ## Mapping and unmapping -/

def walkaddr (pagetable va : Addr) (s : Kmem) : Option Addr :=
  if MAXVA ≤ va then some 0
  else do
    let r ← walk pagetable va false s
    if r.1 = 0 then some 0
    else if load 64 r.2.mem r.1 &&& PTE_V = 0 then some 0
    else if load 64 r.2.mem r.1 &&& PTE_U = 0 then some 0
    else some (PTE2PA (load 64 r.2.mem r.1))

/-- One turn of `uvmunmap`. -/
def unmapPage (sym : Symbols) (pagetable : Addr) (doFree : Bool) (a : Addr) (s : Kmem) : Option Kmem := do
  let r ← walk pagetable a false s
  if r.1 = 0 then none
  else
    let pte := load 64 r.2.mem r.1
    if pte &&& PTE_V = 0 then none
    else if PTE_FLAGS pte = PTE_V then none
    else
      let s ← if doFree then kfree sym (PTE2PA pte) r.2 else some r.2
      some ⟨store s.mem r.1 (0 : BitVec 64), s.freelist⟩

/-- `for (a = va; a < va + npages * PGSIZE; a += PGSIZE)`; both ends are aligned. -/
def uvmunmap (sym : Symbols) (pagetable va : Addr) (npages : BitVec 64) (doFree : Bool) (s : Kmem) : Option Kmem :=
  if va.toNat % PGSIZE ≠ 0 then none
  else
    let stop := va + npages * BitVec.ofNat 64 PGSIZE
    forLoopM (fun i => unmapPage sym pagetable doFree (off va (PGSIZE * i))) 0 ((stop.toNat - va.toNat) / PGSIZE) s

def uvmcreate (s : Kmem) : Addr × Kmem :=
  if (kalloc s).1 = 0 then (0, (kalloc s).2)
  else ((kalloc s).1, ⟨memset (kalloc s).2.mem (kalloc s).1 0 PGSIZE, (kalloc s).2.freelist⟩)

def uvmclear (pagetable va : Addr) (s : Kmem) : Option Kmem := do
  let r ← walk pagetable va false s
  if r.1 = 0 then none
  else some ⟨store r.2.mem r.1 (load 64 r.2.mem r.1 &&& ~~~PTE_U), r.2.freelist⟩

/-! ## Growing and shrinking -/

/-- `npages` is an `int`. -/
def uvmdealloc (sym : Symbols) (pagetable : Addr) (oldsz newsz : BitVec 64) (s : Kmem) : Option (BitVec 64 × Kmem) :=
  if newsz ≥ oldsz then some (oldsz, s)
  else if PGROUNDUP newsz < PGROUNDUP oldsz then do
    let npages := BitVec.setWidth 32 ((PGROUNDUP oldsz - PGROUNDUP newsz) / BitVec.ofNat 64 PGSIZE)
    let s ← uvmunmap sym pagetable (PGROUNDUP newsz) (BitVec.signExtend 64 npages) true s
    some (newsz, s)
  else some (newsz, s)

/-- `for (a = oldsz; a < newsz; a += PGSIZE)` -/
def uvmallocLoop (sym : Symbols) (pagetable : Addr) (oldsz newsz xperm : BitVec 64) :
    ℕ → Addr → Kmem → Option (BitVec 64 × Kmem)
  | 0, _, _ => none
  | n + 1, a, s =>
      if a < newsz then
        let mem := (kalloc s).1
        let s := (kalloc s).2
        if mem = 0 then do
          let r ← uvmdealloc sym pagetable a oldsz s
          some (0, r.2)
        else do
          let s : Kmem := ⟨memset s.mem mem 0 PGSIZE, s.freelist⟩
          let r ← mappages pagetable a (BitVec.ofNat 64 PGSIZE) mem (PTE_R ||| PTE_U ||| xperm) s
          if r.1 ≠ 0 then
            let s ← kfree sym mem r.2
            let r ← uvmdealloc sym pagetable a oldsz s
            some (0, r.2)
          else uvmallocLoop sym pagetable oldsz newsz xperm n (off a PGSIZE) r.2
      else some (newsz, s)

def uvmalloc (sym : Symbols) (pagetable : Addr) (oldsz newsz xperm : BitVec 64) (s : Kmem) :
    Option (BitVec 64 × Kmem) :=
  if newsz < oldsz then some (oldsz, s)
  else uvmallocLoop sym pagetable (PGROUNDUP oldsz) newsz xperm (newsz.toNat / PGSIZE + 2) (PGROUNDUP oldsz) s

/-! ## Freeing -/

/-- One entry of `freewalk`, which calls itself on a lower table. -/
def freeEntry (freewalk : Addr → Kmem → Option Kmem) (pagetable : Addr) (i : ℕ) (s : Kmem) : Option Kmem :=
  let pte := load 64 s.mem (off pagetable (8 * i))
  if pte &&& PTE_V ≠ 0 ∧ pte &&& (PTE_R ||| PTE_W ||| PTE_X) = 0 then do
    let s ← freewalk (PTE2PA pte) s
    some ⟨store s.mem (off pagetable (8 * i)) (0 : BitVec 64), s.freelist⟩
  else if pte &&& PTE_V ≠ 0 then none
  else some s

def freewalk (sym : Symbols) : ℕ → Addr → Kmem → Option Kmem
  | 0, _, _ => none
  | depth + 1, pagetable, s => do
      let s ← forLoopM (freeEntry (freewalk sym depth) pagetable) 0 512 s
      kfree sym pagetable s

def uvmfree (sym : Symbols) (pagetable : Addr) (sz : BitVec 64) (s : Kmem) : Option Kmem := do
  let s ← if 0 < sz then uvmunmap sym pagetable 0 (PGROUNDUP sz / BitVec.ofNat 64 PGSIZE) true s else some s
  freewalk sym 3 pagetable s

/-! ## Copying an address space -/

/-- `err:` -/
def uvmcopyErr (sym : Symbols) (new : Addr) (i : Addr) (s : Kmem) : Option (ℤ × Kmem) := do
  let s ← uvmunmap sym new 0 (i / BitVec.ofNat 64 PGSIZE) true s
  some (-1, s)

/-- `for (i = 0; i < sz; i += PGSIZE)` -/
def uvmcopyLoop (sym : Symbols) (old new : Addr) (sz : BitVec 64) : ℕ → Addr → Kmem → Option (ℤ × Kmem)
  | 0, _, _ => none
  | n + 1, i, s =>
      if i < sz then do
        let r ← walk old i false s
        if r.1 = 0 then none
        else if load 64 r.2.mem r.1 &&& PTE_V = 0 then none
        else
          let pa := PTE2PA (load 64 r.2.mem r.1)
          let flags := PTE_FLAGS (load 64 r.2.mem r.1)
          let mem := (kalloc r.2).1
          let s := (kalloc r.2).2
          if mem = 0 then uvmcopyErr sym new i s
          else
            let s : Kmem := ⟨memmove s.mem mem pa PGSIZE, s.freelist⟩
            let r ← mappages new i (BitVec.ofNat 64 PGSIZE) mem flags s
            if r.1 ≠ 0 then
              let s ← kfree sym mem r.2
              uvmcopyErr sym new i s
            else uvmcopyLoop sym old new sz n (off i PGSIZE) r.2
      else some (0, s)

def uvmcopy (sym : Symbols) (old new : Addr) (sz : BitVec 64) (s : Kmem) : Option (ℤ × Kmem) :=
  uvmcopyLoop sym old new sz (sz.toNat / PGSIZE + 2) 0 s

/-! ## Between kernel and user memory -/

/-- `while (len > 0)`, at least one byte in each turn. -/
def copyoutLoop (pagetable : Addr) : ℕ → Addr → Addr → BitVec 64 → Kmem → Option (ℤ × Kmem)
  | 0, _, _, _, _ => none
  | fuel + 1, dstva, src, len, s =>
      if 0 < len then
        let va0 := PGROUNDDOWN dstva
        if MAXVA ≤ va0 then some (-1, s)
        else do
          let r ← walk pagetable va0 false s
          let pte := load 64 r.2.mem r.1
          if r.1 = 0 ∨ pte &&& PTE_V = 0 ∨ pte &&& PTE_U = 0 ∨ pte &&& PTE_W = 0 then some (-1, r.2)
          else
            let pa0 := PTE2PA pte
            let n := BitVec.ofNat 64 PGSIZE - (dstva - va0)
            let n := if n > len then len else n
            let s : Kmem := ⟨memmove r.2.mem (pa0 + (dstva - va0)) src n.toNat, r.2.freelist⟩
            copyoutLoop pagetable fuel (va0 + BitVec.ofNat 64 PGSIZE) (src + n) (len - n) s
      else some (0, s)

def copyout (pagetable dstva src : Addr) (len : BitVec 64) (s : Kmem) : Option (ℤ × Kmem) :=
  copyoutLoop pagetable (len.toNat + 1) dstva src len s

def copyinLoop (pagetable : Addr) : ℕ → Addr → Addr → BitVec 64 → Kmem → Option (ℤ × Kmem)
  | 0, _, _, _, _ => none
  | fuel + 1, dst, srcva, len, s =>
      if 0 < len then do
        let va0 := PGROUNDDOWN srcva
        let pa0 ← walkaddr pagetable va0 s
        if pa0 = 0 then some (-1, s)
        else
          let n := BitVec.ofNat 64 PGSIZE - (srcva - va0)
          let n := if n > len then len else n
          let s : Kmem := ⟨memmove s.mem dst (pa0 + (srcva - va0)) n.toNat, s.freelist⟩
          copyinLoop pagetable fuel (dst + n) (va0 + BitVec.ofNat 64 PGSIZE) (len - n) s
      else some (0, s)

def copyin (pagetable dst srcva : Addr) (len : BitVec 64) (s : Kmem) : Option (ℤ × Kmem) :=
  copyinLoop pagetable (len.toNat + 1) dst srcva len s

/-- `while (n > 0)`: whether the terminator was met, and `dst`, `max` and the memory afterwards. -/
def copyinstrPage : ℕ → Addr → Addr → BitVec 64 → Mem → Bool × Addr × BitVec 64 × Mem
  | 0, _, dst, max, m => (false, dst, max, m)
  | n + 1, p, dst, max, m =>
      if m p = 0 then (true, dst, max, Function.update m dst 0)
      else copyinstrPage n (p + 1) (dst + 1) (max - 1) (Function.update m dst (m p))

/-- `while (got_null == 0 && max > 0)` -/
def copyinstrLoop (pagetable : Addr) : ℕ → Addr → Addr → BitVec 64 → Kmem → Option (ℤ × Kmem)
  | 0, _, _, _, _ => none
  | fuel + 1, dst, srcva, max, s =>
      if 0 < max then do
        let va0 := PGROUNDDOWN srcva
        let pa0 ← walkaddr pagetable va0 s
        if pa0 = 0 then some (-1, s)
        else
          let n := BitVec.ofNat 64 PGSIZE - (srcva - va0)
          let n := if n > max then max else n
          let r := copyinstrPage n.toNat (pa0 + (srcva - va0)) dst max s.mem
          let s : Kmem := ⟨r.2.2.2, s.freelist⟩
          if r.1 then some (0, s)
          else copyinstrLoop pagetable fuel r.2.1 (va0 + BitVec.ofNat 64 PGSIZE) r.2.2.1 s
      else some (-1, s)

def copyinstr (pagetable dst srcva : Addr) (max : BitVec 64) (s : Kmem) : Option (ℤ × Kmem) :=
  copyinstrLoop pagetable (max.toNat + 1) dst srcva max s

end Xv6Boot.Kernel
