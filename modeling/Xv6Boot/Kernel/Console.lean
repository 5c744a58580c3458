import Xv6Boot.Foundations.Ring
import Xv6Boot.Foundations.ByteMemory
import Xv6Boot.Kernel.Proc

/-! # `console.c`: the line discipline

One function for each section under `cons.lock`: an interrupt, and a stretch of `consoleread` up to its
return or its `sleep`. A process has its own memory, of which some addresses are mapped. What is echoed to
the uart, and the process list that `^P` prints, are left out.
-/

namespace Xv6Boot.Kernel.Console
open Function Transition ByteMemory ProcTable
open Xv6Boot.Ring (Window counter_mod)

def INPUT_BUF_SIZE : ℕ := 128

def C (x : Char) : Byte := BitVec.ofNat 8 (x.toNat - '@'.toNat)

def newline : Byte := BitVec.ofNat 8 '\n'.toNat

def carriageReturn : Byte := BitVec.ofNat 8 '\r'.toNat

def delete : Byte := 0x7f

/-! ## The code -/

structure Cons where
  buf : Fin INPUT_BUF_SIZE → Byte
  r : BitVec 32
  w : BitVec 32
  e : BitVec 32

def index (x : BitVec 32) : Fin INPUT_BUF_SIZE := ⟨x.toNat % INPUT_BUF_SIZE, Nat.mod_lt _ (by decide)⟩

/-- The loop of `^U`. It leaves when `e` is `w`, so after `e - w` turns at the latest. -/
def killLine : ℕ → Cons → Cons
  | 0, k => k
  | turns + 1, k =>
    if k.e ≠ k.w ∧ k.buf (index (k.e - 1)) ≠ newline then killLine turns { k with e := k.e - 1 } else k

def consoleintr (c : Byte) (k : Cons) : Cons × Bool :=
  if c = C 'P' then (k, false)
  else if c = C 'U' then (killLine (k.e - k.w).toNat k, false)
  else if c = C 'H' ∨ c = delete then (if k.e ≠ k.w then { k with e := k.e - 1 } else k, false)
  else if c ≠ 0 ∧ (k.e - k.r).toNat < INPUT_BUF_SIZE then
    let c := if c = carriageReturn then newline else c
    let k := { k with buf := update k.buf (index k.e) c, e := k.e + 1 }
    if c = newline ∨ c = C 'D' ∨ (k.e - k.r).toNat = INPUT_BUF_SIZE then ({ k with w := k.e }, true) else (k, false)
  else (k, false)

/-- The variables of a `consoleread`. Inside its loop `n` is positive. -/
structure Call where
  dst : Addr
  target : ℕ
  n : ℕ
  deriving DecidableEq

inductive Stop where
  | sleeps (f : Call)
  | returns (v : BitVec 32)

/-- `target - n` -/
def Stop.copied (target n : ℕ) : Stop := .returns (BitVec.ofNat 32 target - BitVec.ofNat 32 n)

/-- `consoleread` from the head of its loop, with `n` bytes to go. -/
def readLoop (killed : Bool) (mapped : Addr → Bool) (target : ℕ) :
    ℕ → Addr → Cons → Mem → Cons × Mem × Stop
  | 0, _, k, m => (k, m, .copied target 0)
  | n + 1, dst, k, m =>
    if k.r = k.w then (k, m, if killed then .returns (-1) else .sleeps ⟨dst, target, n + 1⟩)
    else
      let c := k.buf (index k.r)
      let k := { k with r := k.r + 1 }
      if c = C 'D' then (if n + 1 < target then { k with r := k.r - 1 } else k, m, .copied target (n + 1))
      else if mapped dst = false then (k, m, .copied target (n + 1))
      else
        let m := update m dst c
        if c = newline then (k, m, .copied target n) else readLoop killed mapped target n (dst + 1) k m

/-! ## The processes -/

inductive Reader where
  | idle
  | asleep (f : Call)
  | runnable (f : Call)
  | returned (v : BitVec 32)
  deriving DecidableEq

structure State where
  cons : Cons
  reader : Slot → Reader
  killed : Slot → Bool
  mapped : Slot → Addr → Bool
  mem : Slot → Mem

inductive Action where
  | intr (c : Byte)
  | read (p : Slot) (dst : Addr) (n : BitVec 32)
  | run (p : Slot)
  | kill (p : Slot)

def Reader.wake : Reader → Reader
  | .asleep f => .runnable f
  | x => x

def Stop.reader : Stop → Reader
  | .sleeps f => .asleep f
  | .returns v => .returned v

def State.resume (s : State) (p : Slot) (f : Call) : State :=
  let (k, m, stop) := readLoop (s.killed p) (s.mapped p) f.target f.n f.dst s.cons (s.mem p)
  { s with cons := k, mem := update s.mem p m, reader := update s.reader p stop.reader }

def Reader.calling : Reader → Bool
  | .idle | .returned _ => false
  | .asleep _ | .runnable _ => true

def step (s : State) : Action → Outcome State
  | .intr c =>
    let (k, woken) := consoleintr c s.cons
    .next { s with cons := k, reader := if woken then fun p => (s.reader p).wake else s.reader }
  | .read p dst n =>
    if (s.reader p).calling then .disabled
    -- for `n <= 0` the loop is not entered, and `target - n` is 0
    else .next (s.resume p ⟨dst, n.toInt.toNat, n.toInt.toNat⟩)
  | .run p =>
    match s.reader p with
    | .runnable f => .next (s.resume p f)
    | _ => .disabled
  | .kill p => .next { s with killed := update s.killed p true,
                              reader := update s.reader p (s.reader p).wake }

/-- The indices start anywhere; `cons` is zeroed memory at boot. -/
def boot (start : BitVec 32) (mapped : Slot → Addr → Bool) (mem : Slot → Mem) : State where
  cons := ⟨fun _ => 0, start, start, start⟩
  reader := fun _ => .idle
  killed := fun _ => false
  mapped := mapped
  mem := mem

/-! ## The reference editor -/

/-- What can be read, and the line that is being typed. -/
structure Editor where
  ready : List Byte
  line : List Byte

namespace Editor

def full (ed : Editor) : Bool := ed.ready.length + ed.line.length == INPUT_BUF_SIZE

def commit (ed : Editor) : Editor := ⟨ed.ready ++ ed.line, []⟩

def append (c : Byte) (ed : Editor) : Editor :=
  let ed := { ed with line := ed.line ++ [c] }
  if c = newline ∨ c = C 'D' ∨ ed.full then ed.commit else ed

def type (c : Byte) (ed : Editor) : Editor :=
  if c = C 'P' then ed
  else if c = C 'U' then { ed with line := [] }
  else if c = C 'H' ∨ c = delete then { ed with line := ed.line.dropLast }
  else if c = 0 ∨ ed.full then ed
  else ed.append (if c = carriageReturn then newline else c)

end Editor

/-- What a read of `n` bytes gets from a queue: the bytes, the queue afterwards, and whether the read ends
here. `began` says that it has got bytes before. -/
def takeLine : ℕ → Bool → List Byte → List Byte × List Byte × Bool
  | 0, _, q => ([], q, true)
  | _ + 1, _, [] => ([], [], false)
  | n + 1, began, c :: q =>
    if c = C 'D' then ([], if began then c :: q else q, true)
    else if c = newline then ([c], q, true)
    else
      let (bs, q', ends) := takeLine n true q
      (c :: bs, q', ends)

inductive Request where
  | idle
  | waiting (dst : Addr) (n : ℕ) (got : List Byte)
  | returned (dst : Addr) (got : List Byte)
  | failed

structure Reference where
  ed : Editor
  request : Slot → Request
  killed : Slot → Bool

def Request.calling : Request → Bool
  | .waiting _ _ _ => true
  | _ => false

def Request.after (killed : Bool) (dst : Addr) (n : ℕ) (got : List Byte) (ends : Bool) : Request :=
  if ends then .returned dst got else if killed then .failed else .waiting dst n got

def Reference.resume (t : Reference) (p : Slot) (dst : Addr) (n : ℕ) (got : List Byte) : Reference :=
  let (bs, q, ends) := takeLine (n - got.length) (!got.isEmpty) t.ed.ready
  { t with ed := { t.ed with ready := q },
           request := update t.request p (.after (t.killed p) dst n (got ++ bs) ends) }

def Reference.step (t : Reference) : Action → Outcome Reference
  | .intr c => .next { t with ed := t.ed.type c }
  | .read p dst n => if (t.request p).calling then .disabled else .next (t.resume p dst n.toInt.toNat [])
  | .run p =>
    match t.request p with
    | .waiting dst n got => .next (t.resume p dst n got)
    | _ => .disabled
  | .kill p => .next { t with killed := update t.killed p true }

def Reference.init : Reference := ⟨⟨[], []⟩, fun _ => .idle, fun _ => false⟩

/-! ## The ring as an editor -/

def cell (buf : Fin INPUT_BUF_SIZE → Byte) (i : ℕ) : Byte := buf ⟨i % INPUT_BUF_SIZE, Nat.mod_lt _ (by decide)⟩

theorem buf_index (buf : Fin INPUT_BUF_SIZE → Byte) (x : BitVec 32) :
    buf (index x) = cell buf (x.toNat % INPUT_BUF_SIZE) := by
  simp only [index, cell, Nat.mod_mod]

theorem cell_update (buf : Fin INPUT_BUF_SIZE → Byte) (x : BitVec 32) (c : Byte) {i : ℕ} (hi : i < INPUT_BUF_SIZE) :
    cell (update buf (index x) c) i = update (cell buf) (x.toNat % INPUT_BUF_SIZE) c i := by
  simp only [cell, update_apply, index, Fin.mk.injEq, Nat.mod_eq_of_lt hi]

theorem add_ofNat_mod (x : BitVec 32) (i : ℕ) :
    (x + BitVec.ofNat 32 i).toNat % INPUT_BUF_SIZE = (x.toNat + i) % INPUT_BUF_SIZE := by
  have hx : x = BitVec.ofNat 32 x.toNat := by simp
  conv_lhs => rw [hx, ← BitVec.ofNat_add]
  exact counter_mod (by decide) _

structure Rep (k : Cons) (ed : Editor) : Prop where
  w : k.w = k.r + BitVec.ofNat 32 ed.ready.length
  e : k.e = k.w + BitVec.ofNat 32 ed.line.length
  window : Window INPUT_BUF_SIZE (cell k.buf) k.r.toNat (ed.ready ++ ed.line)

section Rep
variable {k : Cons} {ed : Editor} {c : Byte}

theorem Rep.room (h : Rep k ed) : ed.ready.length + ed.line.length ≤ INPUT_BUF_SIZE := by
  have := h.window.room
  rwa [List.length_append] at this

theorem Rep.e_eq (h : Rep k ed) : k.e = k.r + BitVec.ofNat 32 (ed.ready.length + ed.line.length) := by
  rw [h.e, h.w, BitVec.ofNat_add, BitVec.add_assoc]

theorem add_ofNat_sub (x : BitVec 32) {n : ℕ} (hn : n ≤ INPUT_BUF_SIZE) : (x + BitVec.ofNat 32 n - x).toNat = n := by
  rw [BitVec.add_comm, BitVec.add_sub_cancel, BitVec.toNat_ofNat, Nat.mod_eq_of_lt]
  exact hn.trans_lt (by decide)

theorem Rep.w_sub_r (h : Rep k ed) : (k.w - k.r).toNat = ed.ready.length := by
  rw [h.w, add_ofNat_sub]
  have := h.room
  omega

theorem Rep.e_sub_r (h : Rep k ed) : (k.e - k.r).toNat = ed.ready.length + ed.line.length := by
  rw [h.e_eq, add_ofNat_sub _ h.room]

theorem Rep.e_sub_w (h : Rep k ed) : (k.e - k.w).toNat = ed.line.length := by
  rw [h.e, add_ofNat_sub]
  have := h.room
  omega

theorem sub_toNat_eq_zero {x y : BitVec 32} : (x - y).toNat = 0 ↔ x = y := by
  rw [← BitVec.toNat_inj, BitVec.toNat_sub]
  have := x.isLt
  have := y.isLt
  omega

theorem Rep.r_eq_w (h : Rep k ed) : k.r = k.w ↔ ed.ready = [] := by
  rw [eq_comm, ← sub_toNat_eq_zero, h.w_sub_r, List.length_eq_zero_iff]

theorem Rep.e_eq_w (h : Rep k ed) : k.e = k.w ↔ ed.line = [] := by
  rw [← sub_toNat_eq_zero, h.e_sub_w, List.length_eq_zero_iff]

theorem Rep.full_iff (h : Rep k ed) : ed.full = true ↔ (k.e - k.r).toNat = INPUT_BUF_SIZE := by
  rw [h.e_sub_r, Editor.full, beq_iff_eq]

theorem Rep.commit (h : Rep k ed) : Rep { k with w := k.e } ed.commit := by
  refine ⟨?_, by simp [Editor.commit], ?_⟩
  · simpa [Editor.commit] using h.e_eq
  · simpa [Editor.commit] using h.window

theorem Rep.put (h : Rep k ed) (hf : ed.full = false) (c : Byte) :
    Rep { k with buf := update k.buf (index k.e) c, e := k.e + 1 } { ed with line := ed.line ++ [c] } := by
  have hroom : (ed.ready ++ ed.line).length < INPUT_BUF_SIZE := by
    have hr := h.room
    have hne : ed.ready.length + ed.line.length ≠ INPUT_BUF_SIZE := by simpa [Editor.full] using hf
    rw [List.length_append]
    omega
  refine ⟨h.w, ?_, ?_⟩
  · simp only [h.e, List.length_append, List.length_singleton, BitVec.ofNat_add, BitVec.add_assoc]
    rfl
  · have hput := h.window.put hroom c
    rw [List.append_assoc, List.length_append, ← add_ofNat_mod, ← h.e_eq] at hput
    refine ⟨hput.room, fun i hi => ?_⟩
    rw [cell_update _ _ _ (Nat.mod_lt _ (by decide))]
    exact hput.cells i hi

theorem Rep.erase {l : List Byte} (h : Rep k { ed with line := l ++ [c] }) :
    Rep { k with e := k.e - 1 } { ed with line := l } ∧ k.buf (index (k.e - 1)) = c := by
  have he : k.e - 1 = k.w + BitVec.ofNat 32 l.length := by
    rw [h.e, List.length_append, List.length_singleton, BitVec.ofNat_add, ← BitVec.add_assoc]
    exact BitVec.add_sub_cancel _ _
  refine ⟨⟨h.w, he, ?_⟩, ?_⟩
  · refine h.window.shorten ?_
    rw [← List.append_assoc]
    exact List.prefix_append _ _
  · have hcell := h.window.cells (ed.ready.length + l.length) (by simp)
    rw [buf_index k.buf, he, h.w, BitVec.add_assoc, ← BitVec.ofNat_add, add_ofNat_mod, hcell]
    simp [← List.append_assoc]

theorem Rep.killLine {turns : ℕ} (h : Rep k ed) (hp : newline ∉ ed.line) (hn : ed.line.length = turns) :
    Rep (Console.killLine turns k) { ed with line := [] } := by
  induction turns generalizing k ed with
  | zero =>
    rw [List.length_eq_zero_iff] at hn
    rw [← hn]
    exact h
  | succ turns ih =>
    obtain ⟨l, c, hl⟩ : ∃ l c, ed.line = l ++ [c] := by
      have hne : ed.line ≠ [] := List.ne_nil_of_length_eq_add_one hn
      exact ⟨_, _, (List.dropLast_append_getLast hne).symm⟩
    have h' : Rep k { ed with line := l ++ [c] } := hl ▸ h
    obtain ⟨herase, hc⟩ := h'.erase
    have hcond : k.e ≠ k.w ∧ k.buf (index (k.e - 1)) ≠ newline := by
      rw [hc, Ne, h.e_eq_w, hl]
      refine ⟨by simp, ?_⟩
      rintro rfl
      simp [hl] at hp
    rw [Console.killLine, if_pos hcond]
    rw [hl] at hp hn
    have hrest := ih herase (fun hm => hp (List.mem_append_left _ hm)) (by simpa using hn)
    exact hrest

end Rep

/-! ## One interrupt -/

/-- The line that is being typed has no newline, and the ring holds what the editor has. -/
structure Shows (k : Cons) (ed : Editor) : Prop where
  rep : Rep k ed
  plain : newline ∉ ed.line

theorem Shows.append {k : Cons} {ed : Editor} {c : Byte} (h : Shows k ed) (hf : ed.full = false) :
    let k' := { k with buf := update k.buf (index k.e) c, e := k.e + 1 }
    let out := if c = newline ∨ c = C 'D' ∨ (k'.e - k'.r).toNat = INPUT_BUF_SIZE then ({ k' with w := k'.e }, true)
      else (k', false)
    Shows out.1 (ed.append c) ∧ (out.2 = false → (ed.append c).ready = ed.ready) := by
  intro k' out
  have hput : Rep k' { ed with line := ed.line ++ [c] } := h.rep.put hf c
  have hcond : (c = newline ∨ c = C 'D' ∨ (k'.e - k'.r).toNat = INPUT_BUF_SIZE) ↔
      (c = newline ∨ c = C 'D' ∨ Editor.full { ed with line := ed.line ++ [c] }) := by
    rw [hput.full_iff]
  by_cases hc : c = newline ∨ c = C 'D' ∨ Editor.full { ed with line := ed.line ++ [c] }
  · have hout : out = ({ k' with w := k'.e }, true) := if_pos (hcond.mpr hc)
    rw [hout, Editor.append, if_pos hc]
    exact ⟨⟨hput.commit, by simp [Editor.commit]⟩, fun h0 => by cases h0⟩
  · have hout : out = (k', false) := if_neg fun h0 => hc (hcond.mp h0)
    rw [hout, Editor.append, if_neg hc]
    refine ⟨⟨hput, ?_⟩, fun _ => rfl⟩
    rw [List.mem_append, not_or]
    refine ⟨h.plain, fun hm => hc (.inl ?_)⟩
    exact (List.mem_singleton.mp hm).symm

theorem Shows.consoleintr {k : Cons} {ed : Editor} (h : Shows k ed) (c : Byte) :
    Shows (consoleintr c k).1 (ed.type c) ∧ ((Console.consoleintr c k).2 = false → (ed.type c).ready = ed.ready) := by
  by_cases hP : c = C 'P'
  · simp only [Console.consoleintr, Editor.type, if_pos hP]
    exact ⟨h, fun _ => trivial⟩
  by_cases hU : c = C 'U'
  · simp only [Console.consoleintr, Editor.type, if_neg hP, if_pos hU]
    exact ⟨⟨h.rep.killLine h.plain h.rep.e_sub_w.symm, by simp⟩, fun _ => trivial⟩
  by_cases hH : c = C 'H' ∨ c = delete
  · simp only [Console.consoleintr, Editor.type, if_neg hP, if_neg hU, if_pos hH]
    refine ⟨?_, fun _ => trivial⟩
    rcases List.eq_nil_or_concat ed.line with hnil | ⟨l, c', hl⟩
    · rw [if_neg (not_not.mpr (h.rep.e_eq_w.mpr hnil)), hnil, List.dropLast_nil, ← hnil]
      exact h
    · rw [List.concat_eq_append] at hl
      rw [if_pos (by rw [Ne, h.rep.e_eq_w, hl]; simp), hl, List.dropLast_concat]
      have h' : Rep k { ed with line := l ++ [c'] } := hl ▸ h.rep
      exact ⟨h'.erase.1, fun hm => h.plain (hl ▸ List.mem_append_left _ hm)⟩
  by_cases hc : c ≠ 0 ∧ (k.e - k.r).toNat < INPUT_BUF_SIZE
  · have hf : ed.full = false := by
      rw [← Bool.not_eq_true, h.rep.full_iff]
      exact hc.2.ne
    have hskip : ¬ (c = 0 ∨ ed.full) := by simpa [hf] using hc.1
    simp only [Console.consoleintr, Editor.type, if_neg hP, if_neg hU, if_neg hH, if_pos hc, if_neg hskip]
    exact h.append hf
  · have hskip : c = 0 ∨ ed.full := by
      have hle := h.rep.room
      rw [h.rep.full_iff]
      rw [← h.rep.e_sub_r] at hle
      by_cases h0 : c = 0
      · exact .inl h0
      · exact .inr (le_antisymm hle (not_lt.mp fun hlt => hc ⟨h0, hlt⟩))
    simp only [Console.consoleintr, Editor.type, if_neg hP, if_neg hU, if_neg hH, if_neg hc, if_pos hskip]
    exact ⟨h, fun _ => trivial⟩

/-! ## One stretch of a read -/

/-- The bytes `bs` are in memory from `a` on. -/
def Reads (m : Mem) (a : Addr) (bs : List Byte) : Prop := ∀ i, ∀ h : i < bs.length, m (off a i) = bs[i]

theorem Reads.append {m m' : Mem} {a : Addr} {bs bs' : List Byte} (h : Reads m a bs)
    (h' : Reads m' (off a bs.length) bs') (hf : Frame (span (off a bs.length) bs'.length) m m')
    (hlen : bs.length + bs'.length < 2 ^ 64) : Reads m' a (bs ++ bs') := by
  intro i hi
  rw [List.length_append] at hi
  by_cases hlt : i < bs.length
  · rw [List.getElem_append_left hlt, ← h i hlt]
    refine hf _ fun hm => ?_
    obtain ⟨j, hj, hj', he⟩ := exists_off hm
    rw [off_off] at he
    have := off_injective a (by omega) (by omega) he
    omega
  · rw [List.getElem_append_right (by omega), ← h' (i - bs.length) (by omega), off_off, Nat.add_sub_of_le (by omega)]

theorem takeLine_length (n : ℕ) (began : Bool) (q : List Byte) : (takeLine n began q).1.length ≤ n := by
  fun_induction takeLine n began q with
  | case1 => exact le_rfl
  | case2 => exact Nat.zero_le _
  | case3 => exact Nat.zero_le _
  | case4 => exact Nat.succ_le_succ (Nat.zero_le _)
  | case5 n _ c q _ _ bs q' ends hrec ih =>
    rw [hrec] at ih
    exact Nat.succ_le_succ ih

theorem takeLine_waits (n : ℕ) (began : Bool) (q : List Byte) (h : (takeLine n began q).2.2 = false) :
    (takeLine n began q).2.1 = [] ∧ (takeLine n began q).1.length < n := by
  fun_induction takeLine n began q with
  | case1 => cases h
  | case2 => exact ⟨rfl, Nat.zero_lt_succ _⟩
  | case3 => cases h
  | case4 => cases h
  | case5 n _ c q _ _ bs q' ends hrec ih =>
    rw [hrec] at ih
    exact ⟨(ih h).1, Nat.succ_lt_succ (ih h).2⟩

theorem takeLine_nil (n : ℕ) (began : Bool) : (takeLine n began []).2.1 = [] := by
  cases n <;> rfl

def stopAfter (killed : Bool) (target n : ℕ) (dst : Addr) (bs : List Byte) (ends : Bool) : Stop :=
  if ends then .copied target (n - bs.length)
  else if killed then .returns (-1)
  else .sleeps ⟨off dst bs.length, target, n - bs.length⟩

theorem Rep.pop {k : Cons} {c : Byte} {q line : List Byte} (h : Rep k ⟨c :: q, line⟩) :
    Rep { k with r := k.r + 1 } ⟨q, line⟩ ∧ k.buf (index k.r) = c := by
  refine ⟨⟨?_, h.e, ?_⟩, ?_⟩
  · rw [h.w, List.length_cons, Nat.add_comm, BitVec.ofNat_add, ← BitVec.add_assoc]
    rfl
  · refine h.window.tail.of_mod ?_
    exact add_ofNat_mod k.r 1
  · rw [buf_index k.buf]
    exact h.window.head

/-- What `consoleread` did with `n` bytes to go, against what the reference takes from the queue. -/
structure Got (killed : Bool) (target n : ℕ) (dst : Addr) (m : Mem) (line : List Byte)
    (taken : List Byte × List Byte × Bool) (out : Cons × Mem × Stop) : Prop where
  rep : Rep out.1 ⟨taken.2.1, line⟩
  reads : Reads out.2.1 dst taken.1
  frame : Frame (span dst taken.1.length) m out.2.1
  stop : out.2.2 = stopAfter killed target n dst taken.1 taken.2.2

section Stretch
variable {killed : Bool} {target n : ℕ} {dst : Addr} {k : Cons} {m : Mem} {q line : List Byte} {c : Byte}

theorem Got.nothing {stop : Stop} {ends : Bool} (h : Rep k ⟨q, line⟩)
    (hs : stop = stopAfter killed target n dst [] ends) : Got killed target n dst m line ([], q, ends) (k, m, stop) :=
  ⟨h, fun i hi => absurd hi (Nat.not_lt_zero i), Frame.refl _ _, hs⟩

theorem Got.cons {taken : List Byte × List Byte × Bool} {out : Cons × Mem × Stop}
    (h : Got killed target n (dst + 1) (update m dst c) line taken out) (hlen : taken.1.length + 1 < 2 ^ 64) :
    Got killed target (n + 1) dst m line (c :: taken.1, taken.2) out := by
  have hout : ∀ i, i < taken.1.length → off (dst + 1) i ≠ dst := by
    intro i hi he
    rw [off_succ] at he
    have := off_injective dst (by omega) (by omega) (he.trans (off_zero dst).symm)
    omega
  refine ⟨h.rep, fun i hi => ?_, fun x hx => ?_, ?_⟩
  · cases i with
    | zero =>
      rw [off_zero, h.frame dst fun hm => ?_, update_self]
      · rfl
      · obtain ⟨j, hj, -, he⟩ := exists_off hm
        exact hout j hj he.symm
    | succ i =>
      rw [← off_succ]
      exact h.reads i (Nat.lt_of_succ_lt_succ hi)
  · have hne : x ≠ dst := by
      rintro rfl
      exact hx (by simp [mem_span])
    rw [h.frame x fun hm => hx ?_, update_of_ne hne]
    obtain ⟨j, hj, hj', rfl⟩ := exists_off hm
    rw [off_succ]
    exact off_mem_span dst (Nat.succ_lt_succ hj) (by omega)
  · rw [h.stop, stopAfter, stopAfter]
    simp only [List.length_cons, Nat.add_sub_add_right, off_succ]

theorem readLoop_got {mapped : Addr → Bool} (h : Rep k ⟨q, line⟩) (hn : n ≤ target) (hb : n < 2 ^ 64)
    (hm : ∀ i < n, mapped (off dst i) = true) :
    Got killed target n dst m line (takeLine n (decide (n < target)) q) (readLoop killed mapped target n dst k m) := by
  induction n generalizing dst k m q with
  | zero => exact .nothing h rfl
  | succ n ih =>
    cases q with
    | nil =>
      rw [readLoop, if_pos (h.r_eq_w.mpr rfl)]
      exact .nothing h (by simp [stopAfter])
    | cons c q =>
      obtain ⟨hpop, hc⟩ := h.pop
      have hne : k.r ≠ k.w := fun he => by simpa using h.r_eq_w.mp he
      have hmap : ¬ mapped dst = false := by simpa using hm 0 (Nat.zero_lt_succ n)
      rw [readLoop, if_neg hne]
      simp only [hc]
      rw [takeLine]
      by_cases hD : c = C 'D'
      · rw [if_pos hD, if_pos hD]
        refine .nothing ?_ rfl
        by_cases hlt : n + 1 < target
        · rw [if_pos hlt, if_pos (by simpa using hlt), BitVec.add_sub_cancel]
          exact h
        · rw [if_neg hlt, if_neg (by simpa using hlt)]
          exact hpop
      rw [if_neg hD, if_neg hD, if_neg hmap]
      by_cases hnl : c = newline
      · rw [if_pos hnl, if_pos hnl]
        have hone : Got killed target n (dst + 1) (update m dst c) line ([], q, true) _ := .nothing hpop rfl
        exact hone.cons (by simp)
      · rw [if_neg hnl, if_neg hnl]
        have hrest : Got killed target n (dst + 1) (update m dst c) line _ _ :=
          ih hpop (by omega) (by omega) fun i hi => by
            rw [off_succ]
            exact hm (i + 1) (Nat.succ_lt_succ hi)
        rw [decide_eq_true (by omega)] at hrest
        exact hrest.cons (by have := takeLine_length n true q; omega)

end Stretch

/-! ## The simulation -/

/-- A reader of the kernel and the same request to the reference. -/
inductive Agrees (mapped : Addr → Bool) (m : Mem) : Reader → Request → Prop
  | idle : Agrees mapped m .idle .idle
  | waiting (x : Reader) (dst : Addr) (n : ℕ) (got : List Byte)
      (hx : x = .asleep ⟨off dst got.length, n, n - got.length⟩ ∨ x = .runnable ⟨off dst got.length, n, n - got.length⟩)
      (hlt : got.length < n) (hn : n < 2 ^ 31) (hmap : ∀ i < n, mapped (off dst i) = true) (hm : Reads m dst got) :
      Agrees mapped m x (.waiting dst n got)
  | returned (dst : Addr) (got : List Byte) (hlt : got.length < 2 ^ 31) (hm : Reads m dst got) :
      Agrees mapped m (.returned (BitVec.ofNat 32 got.length)) (.returned dst got)
  | failed : Agrees mapped m (.returned (-1)) .failed

theorem Agrees.wake {mapped : Addr → Bool} {m : Mem} {x : Reader} {req : Request} (h : Agrees mapped m x req) :
    Agrees mapped m x.wake req := by
  cases h with
  | idle => exact .idle
  | waiting x dst n got hx hlt hn hmap hm =>
    refine .waiting _ dst n got (.inr ?_) hlt hn hmap hm
    rcases hx with rfl | rfl <;> rfl
  | returned dst got hlt hm => exact .returned dst got hlt hm
  | failed => exact .failed

/-- Nobody sleeps while there is something to read. -/
structure Simulates (s : State) (t : Reference) : Prop where
  shows : Shows s.cons t.ed
  killed : s.killed = t.killed
  agrees : ∀ p, Agrees (s.mapped p) (s.mem p) (s.reader p) (t.request p)
  awake : ∀ p f, s.reader p = .asleep f → t.ed.ready = []

theorem Agrees.calling {mapped : Addr → Bool} {m : Mem} {x : Reader} {req : Request} (h : Agrees mapped m x req) :
    x.calling = req.calling := by
  cases h with
  | idle => rfl
  | waiting x dst n got hx hlt hn hmap hm => rcases hx with rfl | rfl <;> rfl
  | returned dst got hlt hm => rfl
  | failed => rfl

section Simulates
variable {s s' : State} {t : Reference} {p : Slot} {dst : Addr} {n : ℕ} {got bs : List Byte}

theorem agrees_after {mapped : Addr → Bool} {m : Mem} {killed ends : Bool} (hn : n < 2 ^ 31)
    (hle : got.length + bs.length ≤ n) (hlt : ends = false → got.length + bs.length < n)
    (hmap : ∀ i < n, mapped (off dst i) = true) (hm : Reads m dst (got ++ bs)) :
    Agrees mapped m (stopAfter killed n (n - got.length) (off dst got.length) bs ends).reader
      (Request.after killed dst n (got ++ bs) ends) := by
  have hlen : (got ++ bs).length = got.length + bs.length := List.length_append
  have hleft : n - got.length - bs.length = n - (got ++ bs).length := by omega
  unfold stopAfter Request.after
  cases ends with
  | true =>
    have hret : BitVec.ofNat 32 n - BitVec.ofNat 32 (n - got.length - bs.length) =
        BitVec.ofNat 32 (got ++ bs).length := by
      have hsplit : n = (got ++ bs).length + (n - (got ++ bs).length) := by omega
      rw [hleft]
      conv_lhs => rw [hsplit, BitVec.ofNat_add]
      rw [← hsplit]
      exact BitVec.add_sub_cancel _ _
    simp only [if_true, Stop.copied, Stop.reader, hret]
    exact .returned dst _ (by omega) hm
  | false =>
    cases killed with
    | true => exact .failed
    | false =>
      refine .waiting _ dst n _ (.inl ?_) (by rw [hlen]; exact hlt rfl) hn hmap hm
      simp [Stop.reader, off_off, Nat.sub_sub]

theorem Simulates.resume (h : Simulates s t) (hle : got.length ≤ n) (hn : n < 2 ^ 31)
    (hmap : ∀ i < n, s.mapped p (off dst i) = true) (hm : Reads (s.mem p) dst got) :
    Simulates (s.resume p ⟨off dst got.length, n, n - got.length⟩) (t.resume p dst n got) := by
  have hbegan : (!got.isEmpty) = decide (n - got.length < n) ∨ n - got.length = 0 := by
    cases got with
    | nil => simp
    | cons c got =>
      left
      simp at hle ⊢
      omega
  have hgot : Got (s.killed p) n (n - got.length) (off dst got.length) (s.mem p) t.ed.line
      (takeLine (n - got.length) (!got.isEmpty) t.ed.ready)
      (readLoop (s.killed p) (s.mapped p) n (n - got.length) (off dst got.length) s.cons (s.mem p)) := by
    have hspec : Got (s.killed p) n (n - got.length) (off dst got.length) (s.mem p) t.ed.line _ _ :=
      readLoop_got h.shows.rep (Nat.sub_le n got.length) (by omega) fun i hi => by
        rw [off_off]
        exact hmap _ (by omega)
    rcases hbegan with hb | hb
    · rwa [hb]
    · rw [hb] at hspec ⊢
      exact hspec
  have hlen := takeLine_length (n - got.length) (!got.isEmpty) t.ed.ready
  have hwaits := takeLine_waits (n - got.length) (!got.isEmpty) t.ed.ready
  have hnil : t.ed.ready = [] → (takeLine (n - got.length) (!got.isEmpty) t.ed.ready).2.1 = [] := by
    intro h0
    rw [h0]
    exact takeLine_nil _ _
  rcases hout : readLoop (s.killed p) (s.mapped p) n (n - got.length) (off dst got.length) s.cons (s.mem p) with
    ⟨k', m', stop⟩
  rcases htake : takeLine (n - got.length) (!got.isEmpty) t.ed.ready with ⟨bs, q, ends⟩
  simp only [State.resume, Reference.resume, hout, htake]
  rw [hout, htake] at hgot
  rw [htake] at hlen hwaits hnil
  dsimp only at hlen hwaits hnil
  have hstop : stop = stopAfter (s.killed p) n (n - got.length) (off dst got.length) bs ends := hgot.stop
  refine ⟨⟨hgot.rep, h.shows.plain⟩, h.killed, fun p' => ?_, fun p' f hf => ?_⟩
  · by_cases hp : p' = p
    · subst hp
      simp only [update_self]
      rw [hstop, ← h.killed]
      exact agrees_after hn (by omega) (fun h0 => by have := (hwaits h0).2; omega) hmap
        (hm.append hgot.reads hgot.frame (by omega))
    · simp only [update_of_ne hp]
      exact h.agrees p'
  · by_cases hp : p' = p
    · subst hp
      simp only [update_self] at hf
      cases ends with
      | false => exact (hwaits rfl).1
      | true =>
        rw [hstop] at hf
        cases hf
    · simp only [update_of_ne hp] at hf
      exact hnil (h.awake p' f hf)

def Mapped (s : State) : Action → Prop
  | .read p dst n => ∀ i < n.toInt.toNat, s.mapped p (off dst i) = true
  | _ => True

instance (s : State) (e : Action) : Decidable (Mapped s e) :=
  match e with
  | .read _ _ _ => inferInstanceAs (Decidable (∀ i < _, _))
  | .intr _ | .run _ | .kill _ => inferInstanceAs (Decidable True)

theorem toInt_toNat_lt (n : BitVec 32) : n.toInt.toNat < 2 ^ 31 := by
  have := BitVec.toInt_lt (x := n)
  omega

theorem Simulates.step {e : Action} (h : Simulates s t) (hok : Mapped s e) (hst : step s e = .next s') :
    ∃ t', t.step e = .next t' ∧ Simulates s' t' := by
  cases e with
  | intr c =>
    obtain ⟨hshows, hready⟩ := h.shows.consoleintr c
    rcases hout : consoleintr c s.cons with ⟨k', woken⟩
    rw [hout] at hshows hready
    simp only [Console.step, hout] at hst
    cases hst
    refine ⟨_, rfl, hshows, h.killed, fun p => ?_, fun p f hf => ?_⟩
    · cases woken with
      | true => exact (h.agrees p).wake
      | false => exact h.agrees p
    · cases woken with
      | true =>
        simp only [if_true] at hf
        cases hr : s.reader p <;> rw [hr] at hf <;> cases hf
      | false => exact (hready rfl).trans (h.awake p f hf)
  | read p dst n =>
    have hcall := (h.agrees p).calling
    simp only [Console.step] at hst
    split at hst
    · cases hst
    · rename_i hno
      cases hst
      refine ⟨_, if_neg (hcall ▸ hno), ?_⟩
      have hnone : Reads (s.mem p) dst [] := fun i hi => absurd hi (Nat.not_lt_zero i)
      have hres := h.resume (Nat.zero_le _) (toInt_toNat_lt n) hok hnone
      simpa using hres
  | run p =>
    simp only [Console.step] at hst
    split at hst
    · rename_i f hf
      cases hst
      have hag := h.agrees p
      rw [hf] at hag
      generalize hreq : t.request p = req at hag
      cases hag with
      | waiting x dst n got hx hlt hn hmap hm =>
        refine ⟨t.resume p dst n got, by simp only [Reference.step, hreq], ?_⟩
        obtain rfl : f = ⟨off dst got.length, n, n - got.length⟩ := by
          rcases hx with hx | hx
          · cases hx
          · exact Reader.runnable.inj hx
        exact h.resume hlt.le hn hmap hm
    · cases hst
  | kill p =>
    cases hst
    refine ⟨_, rfl, h.shows, by rw [h.killed], fun p' => ?_, fun p' f hf => ?_⟩
    · by_cases hp : p' = p
      · subst hp
        simpa using (h.agrees p').wake
      · simpa [hp] using h.agrees p'
    · by_cases hp : p' = p
      · subst hp
        simp only [update_self] at hf
        cases hr : s.reader p' <;> rw [hr] at hf <;> cases hf
      · simp only [update_of_ne hp] at hf
        exact h.awake p' f hf

theorem boot_simulates (start : BitVec 32) (mapped : Slot → Addr → Bool) (mem : Slot → Mem) :
    Simulates (boot start mapped mem) Reference.init := by
  refine ⟨⟨⟨?_, ?_, Window.nil _ _ _⟩, List.not_mem_nil⟩, rfl, fun _ => .idle, fun p f hf => by cases hf⟩
  · simp [boot, Reference.init]
  · simp [boot, Reference.init]

theorem run_simulates {start : BitVec 32} {mapped : Slot → Addr → Bool} {mem : Slot → Mem} {es : List Action}
    (h : Run step Mapped (boot start mapped mem) es s) :
    ∃ t, Run Reference.step anyAction Reference.init es t ∧ Simulates s t := by
  induction h with
  | nil => exact ⟨_, .nil, boot_simulates start mapped mem⟩
  | snoc _ hok hst ih =>
    obtain ⟨t, hrun, hsim⟩ := ih
    obtain ⟨t', hstep, hsim'⟩ := hsim.step hok hst
    exact ⟨t', hrun.snoc trivial hstep, hsim'⟩

end Simulates

/-- **The line discipline.** Along every run the indices are in order, and every read has returned what the
reference editor gives it for the same keystrokes and calls. -/
theorem run_line_discipline (start : BitVec 32) (mapped : Slot → Addr → Bool) (mem : Slot → Mem) (es : List Action)
    (s : State) (h : Run step Mapped (boot start mapped mem) es s) :
    ((s.cons.w - s.cons.r).toNat ≤ (s.cons.e - s.cons.r).toNat ∧ (s.cons.e - s.cons.r).toNat ≤ INPUT_BUF_SIZE) ∧
    ∃ t, Run Reference.step anyAction Reference.init es t ∧ Rep s.cons t.ed ∧
      ∀ p, Agrees (s.mapped p) (s.mem p) (s.reader p) (t.request p) := by
  obtain ⟨t, hrun, hsim⟩ := run_simulates h
  refine ⟨?_, t, hrun, hsim.shows.rep, hsim.agrees⟩
  rw [hsim.shows.rep.w_sub_r, hsim.shows.rep.e_sub_r]
  exact ⟨Nat.le_add_right _ _, hsim.shows.rep.room⟩

/-- A typing error is corrected, and the line is read in one piece by a process that waited for it. The indices
pass `2 ^ 32` on the way. -/
def sampleTyping : List Action :=
  [.read initproc 0x1000 10, .intr 120, .intr 104, .intr delete, .intr (C 'U'), .intr 104, .intr 105,
    .intr carriageReturn, .intr 111, .run initproc]

theorem sampleTyping_runs : (exec (guarded step Mapped) sampleTyping (boot (-2) (fun _ _ => true) fun _ _ => 0)).check
    (fun s => s.reader initproc == .returned 3 && s.mem initproc 0x1001 == 105 && s.cons.r == 1 && s.cons.e == 2) =
    true := by
  decide +kernel

theorem sampleTyping_discipline :
    ∃ s, Run step Mapped (boot (-2) (fun _ _ => true) fun _ _ => 0) sampleTyping s ∧
      s.reader initproc = .returned 3 ∧ s.mem initproc 0x1001 = 105 ∧ s.cons.r = 1 ∧ s.cons.e = 2 ∧
      ∃ t, Run Reference.step anyAction Reference.init sampleTyping t ∧ Rep s.cons t.ed := by
  obtain ⟨s, hrun, hcheck⟩ := exists_run_of_check _ _ sampleTyping_runs
  simp only [Bool.and_eq_true, beq_iff_eq] at hcheck
  obtain ⟨⟨⟨h1, h2⟩, h3⟩, h4⟩ := hcheck
  obtain ⟨-, t, ht, hrep, -⟩ := run_line_discipline (-2) (fun _ _ => true) (fun _ _ => 0) sampleTyping s hrun
  exact ⟨s, hrun, h1, h2, h3, h4, t, ht, hrep⟩

end Xv6Boot.Kernel.Console
