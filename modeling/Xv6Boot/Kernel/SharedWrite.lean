import Xv6Boot.Foundations.Transition
import Xv6Boot.Kernel.Log
import Xv6Boot.Kernel.FsTable

/-! # `filewrite` through one open file

Any number of processes write through one `struct file` of an inode. A request is written in chunks; each chunk is
one transaction under the inode's lock, and between two chunks of a request the others may write. `chunks` is the
history of the chunks written so far.
-/

namespace Xv6Boot.Kernel.SharedWrite
open Function Program Transition Fs Log
/-- `int max = ((MAXOPBLOCKS-1-1-2) / 2) * BSIZE` -/
def maxChunk : ℤ := (((MAXOPBLOCKS - 1 - 1 - 2) / 2 * BSIZE : ℕ) : ℤ)

/-- `filewrite(f, addr, n)`; `src i` is the byte at `addr + i`, if it can be read. -/
structure Request where
  src : ℕ → Option Byte
  n : ℤ

structure Chunk (P : Type) where
  writer : P
  off : ℕ
  bytes : List (Option Byte)

structure Shared (P : Type) where
  fs : State
  /-- `f->off` -/
  off : BitVec 32
  /-- The request a process is in, and its `i`. -/
  writing : P → Option (Request × ℤ)
  failed : Bool
  chunks : List (Chunk P)

inductive Event (P : Type) where
  | call (p : P) (req : Request)
  | chunk (p : P)
  | ret (p : P)

section
variable (sb : Superblock) (ip : Ip)

def writeChunk (src : ℕ → Option Byte) (off n : BitVec 32) : M ℤ := do
  ilock sb ip
  let r ← writei sb ip src off n
  iunlock ip
  return r

variable {P : Type} [DecidableEq P]

def step (s : Shared P) : Event P → Outcome (Shared P)
  | .call p req =>
    match s.writing p with
    | none => .next { s with writing := update s.writing p (some (req, 0)) }
    | some _ => .disabled
  | .chunk p =>
    match s.writing p with
    | none => .disabled
    | some (req, i) =>
      if i < req.n then
        let n1 := min (req.n - i) maxChunk
        match writeChunk sb ip (fun k => req.src (i.toNat + k)) s.off (BitVec.ofInt 32 n1) s.fs with
        | .error msg => .panic msg
        | .ok (r, fs) =>
          let off := if r > 0 then s.off + BitVec.ofInt 32 r else s.off
          if r = n1 then
            .next { s with
              fs := fs, off := off, writing := update s.writing p (some (req, i + r))
              chunks := s.chunks ++ [⟨p, s.off.toNat, (List.range n1.toNat).map fun k => req.src (i.toNat + k)⟩] }
          else .next { s with fs := fs, off := off, writing := update s.writing p none, failed := true }
      else .disabled
  | .ret p =>
    match s.writing p with
    | none => .disabled
    | some (req, i) => if i < req.n then .disabled else .next { s with writing := update s.writing p none }

end

/-! ## What has been asked for and what has been written -/

section
variable {P : Type} [DecidableEq P]

def Request.upTo (req : Request) (i : ℤ) : List (Option Byte) := (List.range i.toNat).map req.src

def calls (es : List (Event P)) : List (P × Request) :=
  es.filterMap fun
    | .call p req => some (p, req)
    | _ => none

def requested (p : P) (es : List (Event P)) : List (Option Byte) :=
  ((calls es).filter fun c => c.1 = p).flatMap fun c => c.2.upTo c.2.n

def data (cs : List (Chunk P)) : List (Option Byte) := cs.flatMap Chunk.bytes

def written (p : P) (cs : List (Chunk P)) : List (Option Byte) := data (cs.filter fun c => c.writer = p)

def Consecutive (off : ℕ) (cs : List (Chunk P)) : Prop :=
  ∀ l c r, cs = l ++ c :: r → c.off = off + (data l).length

omit [DecidableEq P] in
theorem data_append (cs cs' : List (Chunk P)) : data (cs ++ cs') = data cs ++ data cs' := List.flatMap_append

theorem upTo_add (req : Request) {i j : ℤ} (hi : 0 ≤ i) (hj : 0 ≤ j) :
    req.upTo i ++ (List.range j.toNat).map (fun k => req.src (i.toNat + k)) = req.upTo (i + j) := by
  rw [Request.upTo, Request.upTo, Int.toNat_add hi hj, List.range_add, List.map_append, List.map_map]
  rfl

omit [DecidableEq P] in
theorem Consecutive.snoc {off : ℕ} {cs : List (Chunk P)} {c : Chunk P} (h : Consecutive off cs)
    (hc : c.off = off + (data cs).length) : Consecutive off (cs ++ [c]) := by
  intro l d r he
  rcases List.eq_nil_or_concat r with rfl | ⟨r, e, rfl⟩
  · obtain ⟨rfl, hd⟩ := List.append_inj' he rfl
    rw [← List.singleton_inj.mp hd]
    exact hc
  · have he' : cs ++ [c] = (l ++ d :: r) ++ [e] := by simpa using he
    obtain ⟨rfl, _⟩ := List.append_inj' he' rfl
    exact h l d r rfl

omit [DecidableEq P] in
theorem calls_snoc (es : List (Event P)) (e : Event P) : calls (es ++ [e]) = calls es ++ calls [e] :=
  List.filterMap_append

theorem requested_call (p q : P) (req : Request) (es : List (Event P)) :
    requested q (es ++ [.call p req]) = requested q es ++ if p = q then req.upTo req.n else [] := by
  rw [requested, calls_snoc, List.filter_append, List.flatMap_append, requested]
  by_cases hp : p = q <;> simp [calls, hp]

theorem requested_other (q : P) (es : List (Event P)) {e : Event P} (he : calls [e] = []) :
    requested q (es ++ [e]) = requested q es := by
  rw [requested, calls_snoc, he, List.append_nil, requested]

theorem written_snoc (p : P) (cs : List (Chunk P)) (c : Chunk P) :
    written p (cs ++ [c]) = written p cs ++ if c.writer = p then c.bytes else [] := by
  rw [written, List.filter_append, data_append, written]
  by_cases hp : c.writer = p <;> simp [data, hp]

/-- What `p` has written is what it has asked for, but for the rest of the request it is in. -/
def InOrder (p : P) (es : List (Event P)) (s : Shared P) : Prop :=
  match s.writing p with
  | none => written p s.chunks = requested p es
  | some (req, i) => 0 ≤ i ∧ i ≤ max req.n 0 ∧ ∃ l, requested p es = l ++ req.upTo req.n ∧
      written p s.chunks = l ++ req.upTo i

/-! ## The invariant -/

structure Inv (sb : Superblock) (ip : Ip) (F : Set ℕ) (s₀ : Shared P) (es : List (Event P)) (s : Shared P) : Prop where
  good : Good sb F s.fs
  ref : 0 < (s.fs.inode ip).ref
  inum : (s.fs.inode ip).inum = (s₀.fs.inode ip).inum
  off : s.off.toNat = s₀.off.toNat + (data s.chunks).length
  consecutive : Consecutive s₀.off.toNat s.chunks
  inside : ∀ k < (data s.chunks).length, (data s.chunks).getD k none =
    some ((nodes sb s.fs.cache (s₀.fs.inode ip).inum).bytes (s₀.off.toNat + k))
  outside : ∀ k, (k < s₀.off.toNat ∨ s₀.off.toNat + (data s.chunks).length ≤ k) →
    (nodes sb s.fs.cache (s₀.fs.inode ip).inum).bytes k = (nodes sb s₀.fs.cache (s₀.fs.inode ip).inum).bytes k
  order : ∀ p, InOrder p es s

variable {sb : Superblock} {ip : Ip} {F : Set ℕ} {s₀ s s' : Shared P} {es : List (Event P)} {p : P}

theorem writeChunk_wp (hl : Layout sb) {s : State} (hg : Good sb F s) (hr : 0 < (s.inode ip).ref)
    (src : ℕ → Option Byte) (off n : BitVec 32) :
    wp (writeChunk sb ip src off n) (fun r s' => r = n.toNat → 0 < n.toNat →
      Good sb F s' ∧ 0 < (s'.inode ip).ref ∧ (s'.inode ip).inum = (s.inode ip).inum ∧
      off.toNat + n.toNat ≤ MAXFILE * BSIZE ∧ (∀ i < n.toNat, (src i).isSome = true) ∧
      ∀ k, (nodes sb s'.cache (s.inode ip).inum).bytes k =
        if off.toNat ≤ k ∧ k < off.toNat + n.toNat then (src (k - off.toNat)).getD 0
        else (nodes sb s.cache (s.inode ip).inum).bytes k) (fun _ => True) s := by
  refine (ilock_wp hg hr fun _ => trivial).bind fun _ s₁ ⟨hg₁, hlock, _⟩ => ?_
  have hr₁ : 0 < (s₁.inode ip).ref := by rw [hlock.ref]; exact hr
  refine (writei_good hl hg₁ hr₁ hlock.valid src off n).bind fun r s₂ hpost => ?_
  rcases hpost with ⟨hr2, hs2, _⟩ | ⟨hoff, hend, tot, e, y, hr2, _, hg₂, htab, hnodes, _, _, hbytes, hread, he, _, _⟩
  · subst hs2
    refine (iunlock_wp hr₁).bind fun _ s₃ _ => ?_
    intro hr3 h0
    rw [hr2] at hr3
    omega
  · have hr₂ : 0 < (s₂.inode ip).ref := by rw [htab.ref]; exact hr₁
    refine (iunlock_wp hr₂).bind fun _ s₃ hs3 => ?_
    subst hs3
    intro hr3 _
    obtain rfl : tot = n.toNat := by
      rw [hr2] at hr3
      exact_mod_cast hr3
    refine ⟨hg₂, hr₂, by rw [htab.inum, hlock.inum], hend, hread, fun k => ?_⟩
    rw [← hlock.inum ip, hnodes, update_self, hbytes k (by omega), hlock.inum, hlock.cache]
    rfl

theorem Inv.chunk (hl : Layout sb) (h : Inv sb ip F s₀ es s) {req : Request} {i : ℤ}
    (hw : s.writing p = some (req, i)) (hi : i < req.n) {fs : State} {r : ℤ}
    (hrun : writeChunk sb ip (fun k => req.src (i.toNat + k)) s.off (BitVec.ofInt 32 (min (req.n - i) maxChunk)) s.fs =
      .ok (r, fs))
    (hr : r = min (req.n - i) maxChunk) :
    Inv sb ip F s₀ (es ++ [.chunk p]) { s with
      fs := fs, off := if r > 0 then s.off + BitVec.ofInt 32 r else s.off
      writing := update s.writing p (some (req, i + r))
      chunks := s.chunks ++ [⟨p, s.off.toNat, (List.range (min (req.n - i) maxChunk).toNat).map
        fun k => req.src (i.toNat + k)⟩] } := by
  have hmax : maxChunk = 3072 := rfl
  generalize hn1 : min (req.n - i) maxChunk = n1 at hrun hr ⊢
  have hpos : 0 < n1 := by omega
  have hle : n1 ≤ 3072 := by omega
  have hnat : (BitVec.ofInt 32 n1).toNat = n1.toNat := by
    rw [BitVec.toNat_ofInt]
    omega
  subst hr
  obtain ⟨hg', hr', hinum, hend, hread, hbytes⟩ :=
    ((writeChunk_wp hl h.good h.ref _ _ _).of_ok hrun) (by rw [hnat]; omega) (by rw [hnat]; omega)
  rw [hnat] at hend hread hbytes
  rw [h.inum] at hbytes hinum
  have hoff := h.off
  have hlim : MAXFILE * BSIZE < 2 ^ 31 := by decide
  have hlen : (data (s.chunks ++ [⟨p, s.off.toNat, (List.range r.toNat).map fun k => req.src (i.toNat + k)⟩])).length =
      (data s.chunks).length + r.toNat := by
    simp [data]
  refine ⟨hg', hr', hinum, ?_, h.consecutive.snoc hoff, fun k hk => ?_, fun k hk => ?_, fun q => ?_⟩
  · rw [hlen, if_pos hpos, BitVec.toNat_add, hnat, hoff, Nat.mod_eq_of_lt (by omega), Nat.add_assoc]
  · rw [hlen] at hk
    rw [data_append, hbytes]
    by_cases hold : k < (data s.chunks).length
    · rw [List.getD_append _ _ _ _ hold, if_neg (by omega)]
      exact h.inside k hold
    · have hidx : s₀.off.toNat + k - s.off.toNat = k - (data s.chunks).length := by omega
      have hsome := hread (k - (data s.chunks).length) (by omega)
      rw [List.getD_append_right _ _ _ _ (by omega), if_pos (by omega), hidx]
      generalize k - (data s.chunks).length = m at hsome hidx
      have hm : m < r.toNat := by omega
      obtain ⟨byte, hbyte⟩ := Option.isSome_iff_exists.mp hsome
      simp [data, hm, hbyte]
  · rw [hlen] at hk
    rw [hbytes, if_neg (by omega)]
    exact h.outside k (by omega)
  · have hq := h.order q
    have hreq := requested_other q es (e := .chunk p) rfl
    unfold InOrder at hq ⊢
    simp only [hreq, written_snoc]
    by_cases hpq : q = p
    · subst hpq
      rw [hw] at hq
      obtain ⟨h0, _, l, hl', hwr⟩ := hq
      simp only [update_self, if_true]
      refine ⟨by omega, by omega, l, hl', ?_⟩
      rw [hwr, List.append_assoc, upTo_add req h0 hpos.le]
    · rw [update_of_ne hpq, if_neg (Ne.symm hpq), List.append_nil]
      exact hq

theorem Inv.setWriting (h : Inv sb ip F s₀ es s) {e : Event P} {w : Option (Request × ℤ)}
    (hself : InOrder p (es ++ [e]) { s with writing := update s.writing p w })
    (hother : ∀ q, q ≠ p → requested q (es ++ [e]) = requested q es) :
    Inv sb ip F s₀ (es ++ [e]) { s with writing := update s.writing p w } := by
  refine ⟨h.good, h.ref, h.inum, h.off, h.consecutive, h.inside, h.outside, fun q => ?_⟩
  by_cases hq : q = p
  · subst hq
    exact hself
  · have hord := h.order q
    unfold InOrder at hord ⊢
    simp only [update_of_ne hq, hother q hq]
    exact hord

theorem Inv.step (hl : Layout sb) (h : s.failed = false → Inv sb ip F s₀ es s) {e : Event P}
    (hs : SharedWrite.step sb ip s e = .next s') (hf : s'.failed = false) : Inv sb ip F s₀ (es ++ [e]) s' := by
  cases e with
  | call p req =>
    cases hw : s.writing p with
    | some _ => simp [SharedWrite.step, hw] at hs
    | none =>
      simp only [SharedWrite.step, hw, Outcome.next.injEq] at hs
      subst hs
      refine (h hf).setWriting ?_ fun q hq => ?_
      · have hp := (h hf).order p
        unfold InOrder at hp ⊢
        rw [hw] at hp
        simp only [update_self]
        refine ⟨le_rfl, le_max_right _ _, requested p es, ?_, ?_⟩
        · rw [requested_call, if_pos rfl]
        · rw [hp]
          simp [Request.upTo]
      · rw [requested_call, if_neg (Ne.symm hq), List.append_nil]
  | chunk p =>
    cases hw : s.writing p with
    | none => simp [SharedWrite.step, hw] at hs
    | some w =>
      obtain ⟨req, i⟩ := w
      simp only [SharedWrite.step, hw] at hs
      split at hs
      · next hi =>
        split at hs
        · cases hs
        · next r fs hrun =>
          split at hs
          · next hr =>
            cases hs
            exact (h hf).chunk hl hw hi hrun hr
          · cases hs
            cases hf
      · cases hs
  | ret p =>
    cases hw : s.writing p with
    | none => simp [SharedWrite.step, hw] at hs
    | some w =>
      obtain ⟨req, i⟩ := w
      simp only [SharedWrite.step, hw] at hs
      split at hs
      · cases hs
      · next hi =>
        cases hs
        refine (h hf).setWriting ?_ fun q _ => requested_other q es rfl
        have hp := (h hf).order p
        unfold InOrder at hp ⊢
        rw [hw] at hp
        obtain ⟨h0, hle, l, hreq, hwr⟩ := hp
        have hfull : req.upTo i = req.upTo req.n := by
          rw [Request.upTo, Request.upTo, show i.toNat = req.n.toNat by omega]
        simp only [update_self, requested_other p es (e := .ret p) rfl]
        rw [hwr, hreq, hfull]

/-! ## Every run -/

/-- Nobody is writing. -/
structure Quiet (sb : Superblock) (ip : Ip) (F : Set ℕ) (s : Shared P) : Prop where
  good : Good sb F s.fs
  ref : 0 < (s.fs.inode ip).ref
  idle : ∀ p, s.writing p = none
  failed : s.failed = false
  chunks : s.chunks = []

theorem Quiet.inv (h : Quiet sb ip F s₀) : Inv sb ip F s₀ [] s₀ where
  good := h.good
  ref := h.ref
  inum := rfl
  off := by simp [h.chunks, data]
  consecutive := by
    rw [h.chunks]
    intro l c r he
    simp at he
  inside k hk := by simp [h.chunks, data] at hk
  outside _ _ := rfl
  order p := by
    unfold InOrder
    rw [h.idle p, h.chunks]
    rfl

theorem run_inv (hl : Layout sb) (h0 : Quiet sb ip F s₀) (h : Run (SharedWrite.step sb ip) anyAction s₀ es s) :
    s.failed = false → Inv sb ip F s₀ es s := by
  induction h with
  | nil => exact fun _ => h0.inv
  | snoc _ _ hs ih => exact Inv.step hl ih hs

theorem sum_filter [Fintype P] {α : Type} (l : List α) (f : α → P) (g : α → ℕ) :
    ∑ p : P, ((l.filter fun a => f a = p).map g).sum = (l.map g).sum := by
  induction l with
  | nil => simp
  | cons a l ih =>
    have hcons : ∀ p, (((a :: l).filter fun a => f a = p).map g).sum =
        (if f a = p then g a else 0) + ((l.filter fun a => f a = p).map g).sum := by
      intro p
      by_cases hp : f a = p <;> simp [hp]
    simp only [hcons, Finset.sum_add_distrib, ih, List.map_cons, List.sum_cons]
    simp

theorem length_data [Fintype P] (cs : List (Chunk P)) : (data cs).length = ∑ p, (written p cs).length := by
  have h := sum_filter cs Chunk.writer fun c => c.bytes.length
  simp only [data, written, List.length_flatMap]
  exact h.symm

theorem length_requested [Fintype P] (es : List (Event P)) :
    ∑ p, (requested p es).length = ((calls es).map fun c => c.2.n.toNat).sum := by
  have h := sum_filter (calls es) Prod.fst fun c => (c.2.upTo c.2.n).length
  simp only [requested, List.length_flatMap]
  rw [h]
  simp [Request.upTo]

theorem InOrder.written_le (h : InOrder p es s) : written p s.chunks <+: requested p es := by
  unfold InOrder at h
  split at h
  · rw [h]
  · next req i _ =>
    obtain ⟨h0, hle, l, hreq, hwr⟩ := h
    rw [hreq, hwr]
    refine (List.prefix_append_right_inj l).mpr ?_
    by_cases hn : 0 ≤ req.n
    · have hadd := upTo_add req h0 (show 0 ≤ req.n - i by omega)
      rw [add_sub_cancel] at hadd
      rw [← hadd]
      exact List.prefix_append _ _
    · rw [show i = 0 by omega]
      exact List.nil_prefix

/-- Chunks of all writers lie one behind the other from the first offset on, each writer's bytes in their order. -/
theorem run_shared_writes [Fintype P] (hl : Layout sb) (h0 : Quiet sb ip F s₀)
    (h : Run (SharedWrite.step sb ip) anyAction s₀ es s) (hf : s.failed = false) :
    Consecutive s₀.off.toNat s.chunks ∧ s.off.toNat = s₀.off.toNat + (data s.chunks).length ∧
    (∀ k < (data s.chunks).length, (data s.chunks).getD k none =
      some ((nodes sb s.fs.cache (s₀.fs.inode ip).inum).bytes (s₀.off.toNat + k))) ∧
    (∀ k, (k < s₀.off.toNat ∨ s.off.toNat ≤ k) → (nodes sb s.fs.cache (s₀.fs.inode ip).inum).bytes k =
      (nodes sb s₀.fs.cache (s₀.fs.inode ip).inum).bytes k) ∧
    (∀ p, written p s.chunks <+: requested p es) ∧
    ((∀ p, s.writing p = none) → (∀ p, written p s.chunks = requested p es) ∧
      s.off.toNat = s₀.off.toNat + ((calls es).map fun c => c.2.n.toNat).sum) := by
  have hinv := run_inv hl h0 h hf
  have hdone : (∀ p, s.writing p = none) → ∀ p, written p s.chunks = requested p es := by
    intro hidle p
    have hp := hinv.order p
    unfold InOrder at hp
    rwa [hidle p] at hp
  refine ⟨hinv.consecutive, hinv.off, hinv.inside, fun k hk => hinv.outside k (hinv.off ▸ hk),
    fun p => (hinv.order p).written_le, fun hidle => ⟨hdone hidle, ?_⟩⟩
  rw [hinv.off, length_data, ← length_requested]
  simp only [hdone hidle]

end

/-! ## Two writers -/

def firstInode : Ip := ⟨0, NINODE_pos⟩

def twoWriters : Shared Bool := ⟨emptyFileState, 0, fun _ => none, false, []⟩

def sampleEvents : List (Event Bool) :=
  [.call true ⟨fun _ => some 7, 2⟩, .call false ⟨fun _ => some 8, 1⟩, .chunk false, .chunk true, .ret true, .ret false]

theorem twoWriters_quiet : Quiet smallSb firstInode ∅ twoWriters where
  good := emptyFile_good
  ref := by decide
  idle _ := rfl
  failed := rfl
  chunks := rfl

theorem sampleEvents_runs : ∃ s, Run (SharedWrite.step smallSb firstInode) anyAction twoWriters sampleEvents s ∧
    (s.failed = false ∧ s.off = 3) := by
  obtain ⟨s, hs, hp⟩ := exists_of_check (SharedWrite.step smallSb firstInode) sampleEvents twoWriters
    (fun s => decide (s.failed = false ∧ s.off = 3)) (by decide +kernel)
  exact ⟨s, Run.of_exec (admitted_anyAction _ _) hs, of_decide_eq_true hp⟩

theorem sampleEvents_written : ∃ s, Run (SharedWrite.step smallSb firstInode) anyAction twoWriters sampleEvents s ∧
    s.off = 3 ∧ Consecutive 0 s.chunks ∧ ∀ p, written p s.chunks <+: requested p sampleEvents := by
  obtain ⟨s, hrun, hf, hoff⟩ := sampleEvents_runs
  obtain ⟨hcons, _, _, _, hord, _⟩ := run_shared_writes smallSb_layout twoWriters_quiet hrun hf
  exact ⟨s, hrun, hoff, hcons, hord⟩

end Xv6Boot.Kernel.SharedWrite
