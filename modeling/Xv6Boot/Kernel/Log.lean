import Xv6Boot.Foundations.AtomicWrites

/-! # `log.c`: the redo log on disk

`commit` and `recover_from_log` as the single-block writes they issue, in order. Reads go through the
buffer cache and return what the disk holds, the blocks of the running transaction apart: their new
contents are in pinned buffers (`Txn.data`). A crash cuts a sequence of writes anywhere; the in-memory
header is lost and recovery starts from the header block.
-/

namespace Xv6Boot.Kernel.Log
open Function AtomicWrites

def MAXOPBLOCKS : ℕ := 10
def LOGSIZE : ℕ := MAXOPBLOCKS * 3

abbrev BlockNo := BitVec 32

-- Named, so that the tests `b ∈ lh` in the definitions of later modules are all decided by the same term.
instance : LawfulBEq BlockNo := inferInstance

/-- `BSIZE` bytes, as the 256 words the header code addresses. -/
abbrev Block := Fin 256 → BitVec 32

abbrev Disk := BlockNo → Block

/-! ## The header block -/

/-- What `write_head` makes of the header block; the entries from `n` on are left as they are. -/
def putHead (lh : List BlockNo) (hb : Block) : Block := fun i =>
  if i = 0 then BitVec.ofNat 32 lh.length
  else if i.val ≤ lh.length then lh.getD (i.val - 1) 0
  else hb i

/-- What `read_head` makes of it: `n` is an `int`. -/
def getHead (hb : Block) : List BlockNo :=
  (List.range (hb 0).toInt.toNat).map fun i => hb (Fin.ofNat 256 (i + 1))

theorem getHead_putHead {lh : List BlockNo} (h : lh.length ≤ LOGSIZE) (hb : Block) : getHead (putHead lh hb) = lh := by
  unfold LOGSIZE MAXOPBLOCKS at h
  have hn : (putHead lh hb 0).toInt.toNat = lh.length := by
    rw [putHead, if_pos rfl, BitVec.toInt_eq_toNat_of_lt (by rw [BitVec.toNat_ofNat]; omega),
      BitVec.toNat_ofNat, Int.toNat_natCast]
    omega
  apply List.ext_getElem
  · simp [getHead, hn]
  · intro i hi hi'
    have hv : (Fin.ofNat 256 (i + 1)).val = i + 1 := by
      rw [Fin.val_ofNat]
      omega
    have h0 : (Fin.ofNat 256 (i + 1)) ≠ 0 := by
      intro h0
      rw [h0] at hv
      exact absurd hv (by simp)
    simp only [getHead, List.getElem_map, List.getElem_range, putHead]
    rw [if_neg h0, if_pos (by omega), hv, Nat.add_sub_cancel, List.getD_eq_getElem _ _ hi']

/-! ## The log area -/

/-- `log.start` and `log.size`. -/
structure Area where
  start : BlockNo
  size : ℕ
  size_le : size ≤ 2 ^ 32

variable {i : ℕ} {d' goal : Disk}

namespace Area
variable (a : Area)

def Mem (b : BlockNo) : Prop := (b - a.start).toNat < a.size

/-- `log.start+tail+1` -/
def block (tail : ℕ) : BlockNo := a.start + BitVec.ofNat 32 tail + 1

variable {a}

theorem start_mem {n : ℕ} (h : n < a.size) : a.Mem a.start := by
  rw [Mem, BitVec.sub_self]
  exact Nat.zero_lt_of_lt h

theorem block_sub {tail : ℕ} (h : tail + 1 < a.size) : (a.block tail - a.start).toNat = tail + 1 := by
  have := a.size_le
  rw [block, BitVec.add_assoc, BitVec.add_comm, BitVec.add_sub_cancel, BitVec.toNat_add,
    BitVec.toNat_ofNat, show (1 : BitVec 32).toNat = 1 from rfl]
  omega

theorem block_mem {tail : ℕ} (h : tail + 1 < a.size) : a.Mem (a.block tail) := by
  rw [Mem, block_sub h]
  exact h

theorem block_ne_start {tail : ℕ} (h : tail + 1 < a.size) : a.block tail ≠ a.start := by
  intro he
  have := block_sub h
  rw [he, BitVec.sub_self] at this
  exact absurd this (by simp)

theorem block_injective {j : ℕ} (hi : i + 1 < a.size) (hj : j + 1 < a.size) (h : a.block i = a.block j) : i = j := by
  have := block_sub hi
  rw [h, block_sub hj] at this
  omega

end Area

/-! ## `commit` and recovery -/

/-- The blocks of a transaction, in the order of `lh.block`, and their contents in the cache. -/
structure Txn where
  block : List BlockNo
  data : BlockNo → Block

section Code
variable (a : Area)

def writeHead (lh : List BlockNo) : Write BlockNo Block := fun d => (a.start, putHead lh (d a.start))

def writeLog (t : Txn) : List (Write BlockNo Block) :=
  (List.range t.block.length).map fun tail _ => (a.block tail, t.data (t.block.getD tail 0))

def installTrans (lh : List BlockNo) : List (Write BlockNo Block) :=
  (List.range lh.length).map fun tail d => (lh.getD tail 0, d (a.block tail))

def commit (t : Txn) : List (Write BlockNo Block) :=
  if 0 < t.block.length then
    writeLog a t ++ (writeHead a t.block :: (installTrans a t.block ++ [writeHead a []]))
  else []

def recoverFromLog (d : Disk) : List (Write BlockNo Block) :=
  installTrans a (getHead (d a.start)) ++ [writeHead a []]

end Code

/-! ## What a transaction is for -/

def Txn.apply (t : Txn) (d : Disk) : Disk := fun b => if b ∈ t.block then t.data b else d b

/-- What `log_write` admits. It adds a block only while there are fewer than `LOGSIZE` and fewer than `log.size - 1`; after
that there are at most `LOGSIZE`, and fewer than `log.size`. -/
structure Txn.Fits (a : Area) (t : Txn) : Prop where
  nodup : t.block.Nodup
  le : t.block.length ≤ LOGSIZE
  lt : t.block.length < a.size
  home : ∀ b ∈ t.block, ¬ a.Mem b

def HomeEq (a : Area) (d d' : Disk) : Prop := ∀ b, ¬ a.Mem b → d b = d' b

def Clean (a : Area) (d : Disk) : Prop := d a.start 0 = 0

theorem HomeEq.trans {a : Area} {d d'' : Disk} (h : HomeEq a d d') (h' : HomeEq a d' d'') : HomeEq a d d'' :=
  fun b hb => (h b hb).trans (h' b hb)

theorem HomeEq.apply {a : Area} {d : Disk} (h : HomeEq a d d') (t : Txn) : HomeEq a (t.apply d) (t.apply d') := by
  intro b hb
  simp only [Txn.apply, h b hb]

/-! ## Clean disks -/

section Clear
variable {a : Area} {d : Disk}

theorem perform_writeHead_start (lh : List BlockNo) :
    perform (writeHead a lh) d a.start = putHead lh (d a.start) := update_self _ _ _

theorem perform_writeHead_ne {lh : List BlockNo} {b : BlockNo} (h : b ≠ a.start) :
    perform (writeHead a lh) d b = d b := update_of_ne h _ _

theorem clean_perform_writeHead_nil : Clean a (perform (writeHead a []) d) := by
  rw [Clean, perform_writeHead_start]
  rfl

theorem Clean.getHead (h : Clean a d) : getHead (d a.start) = [] := by
  have h0 : d a.start 0 = 0 := h
  simp [Log.getHead, h0]

theorem Clean.perform_writeHead_nil (h : Clean a d) : perform (writeHead a []) d = d := by
  funext b
  by_cases hb : b = a.start
  · subst hb
    rw [perform_writeHead_start]
    funext i
    by_cases hi : i = 0
    · subst hi
      exact h.symm
    · have hv : ¬ i.val ≤ ([] : List BlockNo).length := by
        simpa using fun hv => hi (Fin.ext hv)
      rw [putHead, if_neg hi, if_neg hv]
  · exact perform_writeHead_ne hb

theorem Clean.recoverFromLog (h : Clean a d) : recoverFromLog a d = [writeHead a []] := by
  rw [Log.recoverFromLog, h.getHead]
  rfl

theorem Clean.crash_recover (h : Clean a d) (k : ℕ) : crash k (Log.recoverFromLog a d) d = d := by
  rw [h.recoverFromLog]
  cases k with
  | zero => rfl
  | succ k =>
    rw [crash_of_length_le (by simp), run_singleton]
    exact h.perform_writeHead_nil

end Clear

/-! ## Committed transactions -/

/-- The transaction is in the log and recorded in the header; some of it may be installed. -/
structure Pending (a : Area) (t : Txn) (base d : Disk) : Prop where
  head : getHead (d a.start) = t.block
  logged : ∀ i < t.block.length, d (a.block i) = t.data (t.block.getD i 0)
  rest : ∀ b, ¬ a.Mem b → b ∉ t.block → d b = base b

section Commit
variable {a : Area} {t : Txn} (ht : t.Fits a) {base d : Disk}
include ht

theorem Txn.Fits.block_home (hi : i < t.block.length) : ¬ a.Mem (t.block.getD i 0) := by
  rw [List.getD_eq_getElem _ _ hi]
  exact ht.home _ (List.getElem_mem hi)

theorem Txn.Fits.tail_lt (hi : i < t.block.length) : i + 1 < a.size := by
  have := ht.lt
  omega

theorem Pending.install_step (hi : i < t.block.length)
    (h : Pending a t base d ∧ ∀ j < i, d (t.block.getD j 0) = t.data (t.block.getD j 0)) :
    Pending a t base (perform (fun d => (t.block.getD i 0, d (a.block i))) d) ∧
      ∀ j < i + 1, perform (fun d => (t.block.getD i 0, d (a.block i))) d (t.block.getD j 0) =
        t.data (t.block.getD j 0) := by
  obtain ⟨hp, hdone⟩ := h
  have hhome := ht.block_home hi
  have hne : ∀ b, a.Mem b → t.block.getD i 0 ≠ b := fun b hb he => hhome (he ▸ hb)
  have hkeep : ∀ b, t.block.getD i 0 ≠ b → perform (fun d : Disk => (t.block.getD i 0, d (a.block i))) d b = d b :=
    fun b hb => perform_ne hb
  have hself : perform (fun d : Disk => (t.block.getD i 0, d (a.block i))) d (t.block.getD i 0) =
      t.data (t.block.getD i 0) := by
    rw [perform, update_self, hp.logged i hi]
  refine ⟨⟨?_, ?_, ?_⟩, ?_⟩
  · rw [hkeep _ (hne _ (Area.start_mem ht.lt))]
    exact hp.head
  · intro j hj
    rw [hkeep _ (hne _ (Area.block_mem (ht.tail_lt hj)))]
    exact hp.logged j hj
  · intro b hb hnot
    rw [hkeep b fun he => hnot ?_]
    · exact hp.rest b hb hnot
    · rw [← he, List.getD_eq_getElem _ _ hi]
      exact List.getElem_mem hi
  · intro j hj
    by_cases he : t.block.getD i 0 = t.block.getD j 0
    · rw [← he]
      exact hself
    · rw [hkeep _ he]
      refine hdone j (lt_of_le_of_ne (Nat.le_of_lt_succ hj) ?_)
      rintro rfl
      exact he rfl

theorem Pending.install (h : Pending a t base d) {k : ℕ} (hk : k ≤ t.block.length) :
    Pending a t base (crash k (installTrans a t.block) d) ∧
      ∀ j < k, crash k (installTrans a t.block) d (t.block.getD j 0) = t.data (t.block.getD j 0) :=
  crash_range_induct _ _
    (fun i d => Pending a t base d ∧ ∀ j < i, d (t.block.getD j 0) = t.data (t.block.getD j 0))
    ⟨h, fun j hj => absurd hj (Nat.not_lt_zero j)⟩ (fun _ hi _ hd => Pending.install_step ht hi hd) hk

theorem Pending.finish (h : Pending a t base d) :
    Clean a (run (installTrans a t.block ++ [writeHead a []]) d) ∧
      HomeEq a (run (installTrans a t.block ++ [writeHead a []]) d) (t.apply base) := by
  have hlen : (installTrans a t.block).length ≤ t.block.length := by simp [installTrans]
  obtain ⟨hp, hdone⟩ := h.install ht le_rfl
  rw [crash_of_length_le hlen] at hp hdone
  rw [run_append, run_singleton]
  refine ⟨clean_perform_writeHead_nil, fun b hb => ?_⟩
  have hne : b ≠ a.start := fun he => hb (he ▸ Area.start_mem ht.lt)
  rw [perform_writeHead_ne hne, Txn.apply]
  by_cases hm : b ∈ t.block
  · obtain ⟨j, hj, rfl⟩ := List.getElem_of_mem hm
    have := hdone j hj
    rw [List.getD_eq_getElem _ _ hj] at this
    rw [if_pos hm, this]
  · rw [if_neg hm]
    exact hp.rest b hb hm

theorem Pending.crash_recover (h : Pending a t base d) (k : ℕ) :
    Pending a t base (crash k (recoverFromLog a d) d) ∨
      Clean a (crash k (recoverFromLog a d) d) ∧ HomeEq a (crash k (recoverFromLog a d) d) (t.apply base) := by
  have hlen : (installTrans a t.block).length = t.block.length := by simp [installTrans]
  rw [recoverFromLog, h.head]
  by_cases hk : k ≤ t.block.length
  · left
    rw [crash_append_of_le (by omega)]
    exact (h.install ht hk).1
  · right
    rw [crash_of_length_le (by simp [hlen]; omega)]
    exact h.finish ht

/-! ## A crash during `commit` -/

omit ht in
/-- While the log blocks are being written nothing else changes. -/
theorem crash_writeLog (k : ℕ) {b : BlockNo}
    (hb : ∀ i < t.block.length, a.block i ≠ b) : crash k (writeLog a t) d b = d b := by
  apply crash_of_untouched
  intro w hw d
  obtain ⟨i, hi, rfl⟩ := List.mem_map.mp hw
  exact hb i (List.mem_range.mp hi)

theorem run_writeLog_block (hi : i < t.block.length) :
    run (writeLog a t) d (a.block i) = t.data (t.block.getD i 0) := by
  have hlen : (writeLog a t).length ≤ t.block.length := by simp [writeLog]
  have h := crash_range_induct (fun tail _ => (a.block tail, t.data (t.block.getD tail 0))) t.block.length
    (fun k (d : Disk) => ∀ j < k, d (a.block j) = t.data (t.block.getD j 0)) (d := d)
    (fun j hj => absurd hj (Nat.not_lt_zero j)) (by
      intro k hk d hd j hj
      by_cases he : j = k
      · subst he
        exact update_self _ _ _
      · rw [perform_ne fun hb => he (Area.block_injective (ht.tail_lt hk) (ht.tail_lt (by omega)) hb).symm]
        exact hd j (by omega)) le_rfl
  have hrun := crash_of_length_le hlen d
  rw [← hrun]
  exact h i hi

/-- The commit point: after the first `write_head` the transaction is pending. -/
theorem pending_of_writeHead : Pending a t d (perform (writeHead a t.block) (run (writeLog a t) d)) := by
  have hlen : (writeLog a t).length ≤ t.block.length := by simp [writeLog]
  refine ⟨?_, ?_, ?_⟩
  · rw [perform_writeHead_start]
    exact getHead_putHead ht.le _
  · intro i hi
    rw [perform_writeHead_ne (Area.block_ne_start (ht.tail_lt hi))]
    exact run_writeLog_block ht hi
  · intro b hb _
    have hne : b ≠ a.start := fun he => hb (he ▸ Area.start_mem ht.lt)
    rw [perform_writeHead_ne hne, ← crash_of_length_le hlen]
    exact crash_writeLog _ fun i hi he => hb (he ▸ Area.block_mem (ht.tail_lt hi))

/-- What a crash after `k` writes of `commit` leaves: the old disk, or the transaction pending or done. -/
theorem crash_commit (hc : Clean a d) (k : ℕ) :
    (if t.block.length < k then
      Pending a t d (crash k (commit a t) d) ∨
        Clean a (crash k (commit a t) d) ∧ HomeEq a (crash k (commit a t) d) (t.apply d)
    else Clean a (crash k (commit a t) d) ∧ HomeEq a (crash k (commit a t) d) d) := by
  have hlen : (writeLog a t).length = t.block.length := by simp [writeLog]
  have hin : (installTrans a t.block).length = t.block.length := by simp [installTrans]
  by_cases h0 : 0 < t.block.length
  · rw [commit, if_pos h0]
    by_cases hk : t.block.length < k
    · rw [if_pos hk, crash_append_of_ge (by omega), hlen]
      obtain ⟨j, hj⟩ : ∃ j, k - t.block.length = j + 1 := ⟨k - t.block.length - 1, by omega⟩
      have hp := pending_of_writeHead ht (d := d)
      rw [hj, crash, List.take_succ_cons, run_cons, ← crash]
      by_cases hj' : j ≤ t.block.length
      · left
        rw [crash_append_of_le (by omega)]
        exact (hp.install ht hj').1
      · right
        rw [crash_of_length_le (by simp [hin]; omega)]
        exact hp.finish ht
    · rw [if_neg hk, crash_append_of_le (by omega)]
      have hkeep : ∀ b, (∀ i < t.block.length, a.block i ≠ b) → crash k (writeLog a t) d b = d b :=
        fun b => crash_writeLog k
      constructor
      · rw [Clean, hkeep _ fun i hi => Area.block_ne_start (ht.tail_lt hi)]
        exact hc
      · intro b hb
        exact hkeep b fun i hi he => hb (he ▸ Area.block_mem (ht.tail_lt hi))
  · have hnil : t.block = [] := List.length_eq_zero_iff.mp (by omega)
    have hsame : t.apply d = d := by
      funext b
      simp [Txn.apply, hnil]
    rw [commit, if_neg h0, crash, List.take_nil, run_nil, hsame]
    split
    · exact .inr ⟨hc, fun b _ => rfl⟩
    · exact ⟨hc, fun b _ => rfl⟩

theorem run_commit (hc : Clean a d) : Clean a (run (commit a t) d) ∧ HomeEq a (run (commit a t) d) (t.apply d) := by
  have hlen : (writeLog a t).length = t.block.length := by simp [writeLog]
  by_cases h0 : 0 < t.block.length
  · rw [commit, if_pos h0, run_append, run_cons]
    exact (pending_of_writeHead ht).finish ht
  · have h := crash_commit ht hc 0
    have hnil : t.block = [] := List.length_eq_zero_iff.mp (by omega)
    have hsame : t.apply d = d := by
      funext b
      simp [Txn.apply, hnil]
    rw [if_neg (by omega)] at h
    rw [commit, if_neg h0] at h ⊢
    rw [hsame]
    exact h

end Commit

/-! ## Runs with crashes -/

/-- Transactions committed one after the other, a crash `k` writes into the commit of one more, and any
number of crashes during recovery, the `i`-th one after `again[i]` writes. -/
structure Session where
  done : List Txn
  last : Txn
  k : ℕ
  again : List ℕ

def commitAll (a : Area) (ts : List Txn) (d : Disk) : Disk := ts.foldl (fun d t => run (commit a t) d) d

def crashAll (a : Area) (ks : List ℕ) (d : Disk) : Disk := ks.foldl (fun d k => crash k (recoverFromLog a d) d) d

def recovered (a : Area) (d : Disk) : Disk := run (recoverFromLog a d) d

def Session.exec (a : Area) (s : Session) (d : Disk) : Disk :=
  recovered a (crashAll a s.again (crash s.k (commit a s.last) (commitAll a s.done d)))

/-- The last transaction counts if its first `write_head`, the write after those of `write_log`, was done. -/
def Session.durable (s : Session) : List Txn :=
  if s.last.block.length < s.k then s.done ++ [s.last] else s.done

def applyAll (ts : List Txn) (d : Disk) : Disk := ts.foldl (fun d t => t.apply d) d

theorem Session.durable_prefix (s : Session) : s.durable <+: s.done ++ [s.last] := by
  unfold durable
  split
  · exact List.prefix_refl _
  · exact List.prefix_append _ _

variable {a : Area} {d : Disk}

theorem HomeEq.applyAll (h : HomeEq a d d') (ts : List Txn) : HomeEq a (applyAll ts d) (applyAll ts d') := by
  induction ts generalizing d d' with
  | nil => exact h
  | cons t ts ih => exact ih (h.apply t)

theorem commitAll_spec {ts : List Txn} (hts : ∀ t ∈ ts, t.Fits a) (hc : Clean a d) :
    Clean a (commitAll a ts d) ∧ HomeEq a (commitAll a ts d) (applyAll ts d) := by
  induction ts generalizing d with
  | nil => exact ⟨hc, fun b _ => rfl⟩
  | cons t ts ih =>
    obtain ⟨hc1, he1⟩ := run_commit (hts t List.mem_cons_self) hc
    obtain ⟨hc2, he2⟩ := ih (fun u hu => hts u (List.mem_cons_of_mem _ hu)) hc1
    exact ⟨hc2, he2.trans (he1.applyAll ts)⟩

def Recoverable (a : Area) (goal d : Disk) : Prop :=
  (Clean a d ∧ HomeEq a d goal) ∨ ∃ t base, t.Fits a ∧ Pending a t base d ∧ HomeEq a (t.apply base) goal

theorem Recoverable.trans (h : Recoverable a goal d) (he : HomeEq a goal d') : Recoverable a d' d := by
  rcases h with ⟨hc, hd⟩ | ⟨t, base, ht, hp, hd⟩
  · exact .inl ⟨hc, hd.trans he⟩
  · exact .inr ⟨t, base, ht, hp, hd.trans he⟩

theorem Recoverable.crash (h : Recoverable a goal d) (k : ℕ) : Recoverable a goal (crash k (recoverFromLog a d) d) := by
  rcases h with ⟨hc, he⟩ | ⟨t, base, ht, hp, he⟩
  · left
    rw [hc.crash_recover]
    exact ⟨hc, he⟩
  · rcases hp.crash_recover ht k with hp' | ⟨hc', he'⟩
    · exact .inr ⟨t, base, ht, hp', he⟩
    · exact .inl ⟨hc', he'.trans he⟩

theorem Recoverable.crashAll (h : Recoverable a goal d) (ks : List ℕ) : Recoverable a goal (crashAll a ks d) := by
  induction ks generalizing d with
  | nil => exact h
  | cons k ks ih => exact ih (h.crash k)

theorem Clean.recovered (hc : Clean a d) : recovered a d = d := by
  have hr := hc.crash_recover (Log.recoverFromLog a d).length
  rw [crash_of_length_le le_rfl] at hr
  exact hr

theorem Recoverable.recovered (h : Recoverable a goal d) : Clean a (recovered a d) ∧ HomeEq a (recovered a d) goal := by
  rcases h with ⟨hc, he⟩ | ⟨t, base, ht, hp, he⟩
  · rw [hc.recovered]
    exact ⟨hc, he⟩
  · rw [Log.recovered, recoverFromLog, hp.head]
    obtain ⟨hc', he'⟩ := hp.finish ht
    exact ⟨hc', he'.trans he⟩

theorem crash_recoverable {t : Txn} (ht : t.Fits a) (hc : Clean a d) (k : ℕ) :
    Recoverable a (if t.block.length < k then t.apply d else d) (crash k (commit a t) d) := by
  have h := crash_commit ht hc k
  split at h
  · rename_i hk
    rw [if_pos hk]
    rcases h with hp | hd
    · exact .inr ⟨t, d, ht, hp, fun b _ => rfl⟩
    · exact .inl hd
  · rename_i hk
    rw [if_neg hk]
    exact .inl h

theorem applyAll_durable (s : Session) (d : Disk) : applyAll s.durable d =
    if s.last.block.length < s.k then s.last.apply (applyAll s.done d) else applyAll s.done d := by
  unfold Session.durable
  split
  · rw [applyAll, List.foldl_append]
    rfl
  · rfl

theorem Session.exec_spec (s : Session) (hc : Clean a d) (hdone : ∀ t ∈ s.done, t.Fits a) (hlast : s.last.Fits a) :
    Clean a (s.exec a d) ∧ HomeEq a (s.exec a d) (applyAll s.durable d) := by
  obtain ⟨hc1, he1⟩ := commitAll_spec hdone hc
  obtain ⟨hc2, he2⟩ := ((crash_recoverable hlast hc1 s.k).crashAll s.again).recovered
  refine ⟨hc2, he2.trans ?_⟩
  rw [applyAll_durable]
  split
  · exact he1.apply s.last
  · exact he1

/-- **Crash atomicity.** However the commit and the recoveries are cut, a recovery that completes leaves
the home blocks as a prefix of the transactions makes them, and nothing is left to recover. -/
theorem session_atomic (a : Area) (s : Session) (d : Disk) (hc : Clean a d) (hdone : ∀ t ∈ s.done, t.Fits a)
    (hlast : s.last.Fits a) :
    HomeEq a (s.exec a d) (applyAll s.durable d) ∧ s.durable <+: s.done ++ [s.last] ∧
      recovered a (s.exec a d) = s.exec a d ∧ Clean a (s.exec a d) := by
  obtain ⟨hc', he⟩ := s.exec_spec hc hdone hlast
  exact ⟨he, s.durable_prefix, hc'.recovered, hc'⟩

def sampleSession : Session where
  done := [⟨[100#32], fun _ _ => 1⟩]
  last := ⟨[100#32, 101#32], fun _ _ => 2⟩
  k := 4
  again := [1]

def sampleArea : Area := ⟨2#32, 30, by norm_num⟩

theorem sampleSession_atomic :
    HomeEq sampleArea (sampleSession.exec sampleArea fun _ _ => 0) (applyAll sampleSession.durable fun _ _ => 0) ∧
      sampleSession.durable <+: sampleSession.done ++ [sampleSession.last] ∧
      recovered sampleArea (sampleSession.exec sampleArea fun _ _ => 0) =
        sampleSession.exec sampleArea (fun _ _ => 0) ∧
      Clean sampleArea (sampleSession.exec sampleArea fun _ _ => 0) := by
  have hfit : ∀ t : Txn, t.block.Nodup → t.block.length ≤ 2 → (∀ b ∈ t.block, 100#32 ≤ b ∧ b ≤ 101#32) →
      t.Fits sampleArea := by
    intro t hn hl hb
    refine ⟨hn, hl.trans (by decide), lt_of_le_of_lt hl (by decide), fun b hm => ?_⟩
    obtain ⟨h1, h2⟩ := hb b hm
    unfold Area.Mem sampleArea
    bv_omega
  refine session_atomic sampleArea sampleSession (fun _ _ => 0) rfl (fun t ht => ?_) ?_
  · obtain rfl := List.mem_singleton.mp ht
    exact hfit _ (by simp) (by simp) (by simp)
  · exact hfit _ (by simp [sampleSession]) (by simp [sampleSession]) (by simp [sampleSession])

/-- Boot after boot: each session starts on the disk the last one recovered. -/
theorem sessions_atomic {ss : List Session} (hc : Clean a d)
    (hfit : ∀ s ∈ ss, (∀ t ∈ s.done, t.Fits a) ∧ s.last.Fits a) :
    Clean a (ss.foldl (fun d s => s.exec a d) d) ∧
      HomeEq a (ss.foldl (fun d s => s.exec a d) d) (applyAll (ss.flatMap Session.durable) d) := by
  induction ss generalizing d with
  | nil => exact ⟨hc, fun b _ => rfl⟩
  | cons s ss ih =>
    obtain ⟨hdone, hlast⟩ := hfit s List.mem_cons_self
    obtain ⟨hc1, he1⟩ := s.exec_spec hc hdone hlast
    obtain ⟨hc2, he2⟩ := ih hc1 fun u hu => hfit u (List.mem_cons_of_mem _ hu)
    refine ⟨hc2, he2.trans ?_⟩
    have happ : applyAll ((s :: ss).flatMap Session.durable) d =
        applyAll (ss.flatMap Session.durable) (applyAll s.durable d) := List.foldl_append
    rw [happ]
    exact he1.applyAll _

end Xv6Boot.Kernel.Log
