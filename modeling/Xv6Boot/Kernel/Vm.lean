import Xv6Boot.Kernel.Kalloc
import Xv6Boot.Kernel.Proc

/-! # `vm.c`: page tables and the kernel address space

`walk`, `mappages` and `kvmmake` on the memory they run in: page-table pages are pages of the allocator,
entries are words of those pages. `none` is a panic; `walk` reports a missing table by address 0.
-/

namespace Xv6Boot.Kernel
open ByteMemory Loop StringC Pages
open ProcTable (NPROC)

/-! ## Sv39 entries and indices -/

def PTE_V : BitVec 64 := 1
def PTE_R : BitVec 64 := 2
def PTE_W : BitVec 64 := 4
def PTE_X : BitVec 64 := 8

def PA2PTE (pa : Addr) : BitVec 64 := (pa >>> 12) <<< 10
def PTE2PA (pte : BitVec 64) : Addr := (pte >>> 10) <<< 12
def PX (level : ℕ) (va : Addr) : ℕ := ((va >>> (12 + 9 * level)) &&& 0x1ff).toNat

def MAXVA : Addr := 0x4000000000#64

/-! ## `walk` and `mappages` -/

/-- One level of `walk`: the next table, or `none` where the source returns 0. -/
def walkLevel (alloc : Bool) (va : Addr) (level : ℕ) (pagetable : Addr) (s : Kmem) : Option Addr × Kmem :=
  let pte := off pagetable (8 * PX level va)
  if load 64 s.mem pte &&& PTE_V ≠ 0 then
    (some (PTE2PA (load 64 s.mem pte)), s)
  else if !alloc then
    (none, s)
  else if (kalloc s).1 = 0 then
    (none, (kalloc s).2)
  else
    let pagetable := (kalloc s).1
    let mem := memset (kalloc s).2.mem pagetable 0 PGSIZE
    (some pagetable, ⟨store mem pte (PA2PTE pagetable ||| PTE_V), (kalloc s).2.freelist⟩)

/-- `for (int level = 2; level > 0; level--)` -/
def walkLoop (alloc : Bool) (va : Addr) : ℕ → Addr → Kmem → Option Addr × Kmem
  | 0, pagetable, s => (some pagetable, s)
  | level + 1, pagetable, s =>
      let r := walkLevel alloc va (level + 1) pagetable s
      r.1.elim (none, r.2) fun pagetable => walkLoop alloc va level pagetable r.2

def walk (pagetable va : Addr) (alloc : Bool) (s : Kmem) : Option (Addr × Kmem) :=
  if MAXVA ≤ va then none
  else
    let r := walkLoop alloc va 2 pagetable s
    some (r.1.elim 0 fun pagetable => off pagetable (8 * PX 0 va), r.2)

/-- One iteration of `mappages`; `false` where it returns -1. -/
def mapPage (pagetable : Addr) (perm : BitVec 64) (a pa : Addr) (s : Kmem) : Option (Bool × Kmem) := do
  let r ← walk pagetable a true s
  if r.1 = 0 then
    some (false, r.2)
  else if load 64 r.2.mem r.1 &&& PTE_V ≠ 0 then
    none
  else
    some (true, ⟨store r.2.mem r.1 (PA2PTE pa ||| perm ||| PTE_V), r.2.freelist⟩)

/-- The endless loop of `mappages`, left at `a == last`. The first argument bounds the iterations;
`mappages` passes the number of pages. -/
def mapLoop (pagetable : Addr) (perm : BitVec 64) (last : Addr) :
    ℕ → Addr → Addr → Kmem → Option (ℤ × Kmem)
  | 0, _, _, _ => none
  | n + 1, a, pa, s => do
      let r ← mapPage pagetable perm a pa s
      if r.1 = false then
        some (-1, r.2)
      else if a = last then
        some (0, r.2)
      else
        mapLoop pagetable perm last n (off a PGSIZE) (off pa PGSIZE) r.2

def mappages (pagetable va : Addr) (size : BitVec 64) (pa : Addr) (perm : BitVec 64) (s : Kmem) :
    Option (ℤ × Kmem) :=
  if va.toNat % PGSIZE ≠ 0 then none
  else if size.toNat % PGSIZE ≠ 0 then none
  else if size = 0 then none
  else mapLoop pagetable perm (va + size - BitVec.ofNat 64 PGSIZE) (size.toNat / PGSIZE) va pa s

/-! ## The kernel page table -/

def UART0 : Addr := 0x10000000#64
def VIRTIO0 : Addr := 0x10001000#64
def PLIC : Addr := 0x0c000000#64
def TRAMPOLINE : Addr := MAXVA - BitVec.ofNat 64 PGSIZE

/-- `TRAMPOLINE - (p + 1) * 2 * PGSIZE` -/
def KSTACK (p : ℕ) : Addr := TRAMPOLINE - BitVec.ofNat 64 ((p + 1) * 2 * PGSIZE)

def kvmmap (kpgtbl va pa : Addr) (sz perm : BitVec 64) (s : Kmem) : Option Kmem := do
  let r ← mappages kpgtbl va sz pa perm s
  if r.1 ≠ 0 then none else some r.2

def mapstack (kpgtbl : Addr) (p : ℕ) (s : Kmem) : Option Kmem :=
  if (kalloc s).1 = 0 then none
  else kvmmap kpgtbl (KSTACK p) (kalloc s).1 (BitVec.ofNat 64 PGSIZE) (PTE_R ||| PTE_W) (kalloc s).2

def procMapstacks (kpgtbl : Addr) (s : Kmem) : Option Kmem := forLoopM (mapstack kpgtbl) 0 NPROC s

def kvmmake (sym : Symbols) (s : Kmem) : Option (Addr × Kmem) := do
  let kpgtbl := (kalloc s).1
  let s : Kmem := ⟨memset (kalloc s).2.mem kpgtbl 0 PGSIZE, (kalloc s).2.freelist⟩
  let s ← kvmmap kpgtbl UART0 UART0 (BitVec.ofNat 64 PGSIZE) (PTE_R ||| PTE_W) s
  let s ← kvmmap kpgtbl VIRTIO0 VIRTIO0 (BitVec.ofNat 64 PGSIZE) (PTE_R ||| PTE_W) s
  let s ← kvmmap kpgtbl PLIC PLIC 0x4000000#64 (PTE_R ||| PTE_W) s
  let s ← kvmmap kpgtbl KERNBASE KERNBASE (sym.etext - KERNBASE) (PTE_R ||| PTE_X) s
  let s ← kvmmap kpgtbl sym.etext sym.etext (PHYSTOP - sym.etext) (PTE_R ||| PTE_W) s
  let s ← kvmmap kpgtbl TRAMPOLINE sym.trampoline (BitVec.ofNat 64 PGSIZE) (PTE_R ||| PTE_X) s
  let s ← procMapstacks kpgtbl s
  some (kpgtbl, s)

end Xv6Boot.Kernel
