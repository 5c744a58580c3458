import Xv6Boot.Kernel.BlockStore

/-! # The cache and the log as one block store

What a process asks the cache for and what it holds, where `commit` is in the transaction, and where the
contents of each block are: in the cache, on the disk, in the log.
-/

namespace Xv6Boot.Kernel.BlockStore
open Function Transition Counting Log ProcTable Bio

/-! ## How far the commit is -/

namespace CommitPc

def unpinned (n : ℕ) : CommitPc → ℕ
  | .insLog t | .insDst t _ | .insCopy t _ _ | .insWrite t _ _ | .insUnpin t _ _ => t
  | .insRelseLog t _ _ | .insRelseDst t _ => t + 1
  | .clear => n
  | _ => 0

def installed (n : ℕ) : CommitPc → ℕ
  | .insUnpin t _ _ => t + 1
  | pc => pc.unpinned n

theorem unpinned_le_installed {n : ℕ} {pc : CommitPc} : pc.unpinned n ≤ pc.installed n := by
  cases pc <;> simp [unpinned, installed]

def logged (n : ℕ) : CommitPc → ℕ
  | .start => 0
  | .logTo t | .logFrom t _ | .logCopy t _ _ | .logWrite t _ _ => t
  | .logRelseFrom t _ _ | .logRelseTo t _ => t + 1
  | _ => n

def tail : CommitPc → Option ℕ
  | .logFrom t _ | .logCopy t _ _ | .logWrite t _ _ | .logRelseFrom t _ _ | .logRelseTo t _ | .insDst t _
  | .insCopy t _ _ | .insWrite t _ _ | .insUnpin t _ _ | .insRelseLog t _ _ | .insRelseDst t _ => some t
  | _ => none

def held (a : Area) (lh : List BlockNo) : CommitPc → List (BufNo × BlockNo)
  | .logFrom t dst | .logRelseTo t dst => [(dst, a.block t)]
  | .logCopy t dst src | .logWrite t dst src | .logRelseFrom t dst src => [(dst, a.block t), (src, lh.getD t 0)]
  | .headFill _ buf | .headWrite _ buf | .headRelse _ buf => [(buf, a.start)]
  | .insDst t lbuf => [(lbuf, a.block t)]
  | .insCopy t lbuf dbuf | .insWrite t lbuf dbuf | .insUnpin t lbuf dbuf | .insRelseLog t lbuf dbuf =>
    [(lbuf, a.block t), (dbuf, lh.getD t 0)]
  | .insRelseDst t dbuf => [(dbuf, lh.getD t 0)]
  | _ => []

/-- The block the next `bread` is for. -/
def wants (a : Area) (lh : List BlockNo) : CommitPc → Option BlockNo
  | .logTo t | .insLog t => if t < lh.length then some (a.block t) else none
  | .logFrom t _ | .insDst t _ => some (lh.getD t 0)
  | .head _ => some a.start
  | _ => none

def unwritten : CommitPc → Option BufNo
  | .logWrite _ dst _ => some dst
  | .headWrite _ buf => some buf
  | _ => none

def inside : CommitPc → Bool
  | .start | .done => false
  | _ => true

end CommitPc

def Loc.held (a : Area) (lh : List BlockNo) : Loc → List (BufNo × BlockNo)
  | .committing pc => pc.held a lh
  | _ => []

def Loc.Asks (a : Area) (lh : List BlockNo) (b : BlockNo) : Loc → Prop
  | .committing pc => pc.wants a lh = some b
  | _ => ¬ a.Mem b

/-! ## Who asks for what and holds what -/

structure Claims (a : Area) (io : Io) (lh : List BlockNo) (loc : Slot → Loc) (unsaved : BufNo → Bool) : Prop where
  asks : ∀ p dev b i, io.pc p = .locking dev b i ∨ io.pc p = .filling dev b i → dev = ROOTDEV ∧ (loc p).Asks a lh b
  locks : ∀ i p, (io.buf i).lock = some p → (io.buf i).dev = ROOTDEV ∧
    (a.Mem (io.buf i).blockno → (∃ dev b, io.pc p = .filling dev b i) ∨ ∃ b, (i, b) ∈ (loc p).held a lh)
  held : ∀ p i b, (i, b) ∈ (loc p).held a lh →
    (io.buf i).lock = some p ∧ (io.buf i).blockno = b ∧ (io.buf i).valid = true ∧ unsaved i = false
  saved : ∀ i, unsaved i = true → ∃ p, (io.buf i).lock = some p ∧ ∀ dev b, io.pc p ≠ .filling dev b i

section Claims
variable {a : Area} {io io' : Io} {lh : List BlockNo} {loc : Slot → Loc} {unsaved : BufNo → Bool} {p : Slot} {i : BufNo}
  {dev : BitVec 32} {b : BlockNo}

section
variable (h : Claims a io lh loc unsaved)
include h

theorem Claims.congr (hpc : io'.pc = io.pc)
    (hbuf : ∀ i, (io'.buf i).lock = (io.buf i).lock ∧ (io'.buf i).dev = (io.buf i).dev ∧ (io'.buf i).blockno =
      (io.buf i).blockno ∧ (io'.buf i).valid = (io.buf i).valid) :
    Claims a io' lh loc unsaved := by
  obtain ⟨asks, locks, held, saved⟩ := h
  refine ⟨?_, ?_, ?_, ?_⟩
  · rwa [hpc]
  · intro i p
    rw [(hbuf i).1, (hbuf i).2.1, (hbuf i).2.2.1, hpc]
    exact locks i p
  · intro p i b
    rw [(hbuf i).1, (hbuf i).2.2.1, (hbuf i).2.2.2]
    exact held p i b
  · intro i
    rw [(hbuf i).1, hpc]
    exact saved i

theorem Claims.bget (hs : Sound io) (hf : Few io) (hp : io.pc p = .out) (hdev : dev = ROOTDEV)
    (hask : (loc p).Asks a lh b) (hg : io.bget p dev b = .next io') : Claims a io' lh loc unsaved := by
  obtain ⟨asks, locks, held, saved⟩ := h
  cases hs.bget_cases hf hg with
  | found i hi he =>
    subst he
    refine ⟨?_, ?_, ?_, ?_⟩ <;>
      simp only [Io.goto_buf, Io.modBuf_buf, Io.goto_pc, Io.modBuf_pc, update_apply]
    · grind
    · grind
    · grind
    · grind
  | recycled i hi hnew he =>
    have hlock := hi.lock
    subst he
    refine ⟨?_, ?_, ?_, ?_⟩ <;>
      simp only [Io.goto_buf, Io.modBuf_buf, Io.goto_pc, Io.modBuf_pc, update_apply]
    · grind
    · grind
    · grind
    · grind

theorem Claims.acquire (hs : Sound io) (hp : io.pc p = .locking dev b i)
    (hg : io.acquiresleep p i dev b = .next io') : Claims a io' lh loc unsaved := by
  unfold Io.acquiresleep at hg
  split at hg
  · rename_i hlock
    cases hg
    have hask := h.asks p dev b i (.inl hp)
    have hkey := hs.locking p dev b i hp
    obtain ⟨asks, locks, held, saved⟩ := h
    refine ⟨?_, ?_, ?_, ?_⟩ <;>
      simp only [Io.goto_buf, Io.modBuf_buf, Io.goto_pc, Io.modBuf_pc, update_apply]
    · grind
    · grind
    · grind
    · grind
  · cases hg

theorem Claims.unsaved_filling (hs : Sound io) (hp : io.pc p = .filling dev b i) : unsaved i = false := by
  by_contra hu
  obtain ⟨q, hq, hne⟩ := h.saved i (by simpa using hu)
  have hl := (hs.filling p dev b i hp).2.2
  rw [hl, Option.some.injEq] at hq
  exact hne dev b (hq ▸ hp)

end

theorem mem_held_got {pc : CommitPc} {x : BufNo × BlockNo} (hw : pc.wants a lh = some b) :
    x ∈ (pc.got i).held a lh ↔ x ∈ pc.held a lh ∨ x = (i, b) := by
  cases pc <;> simp_all [CommitPc.wants, CommitPc.got, CommitPc.held]

section
variable (h : Claims a io lh loc unsaved)
include h

theorem Claims.fill (hs : Sound io) (hp : io.pc p = .filling dev b i) :
    Claims a (io.fill p i) lh (update loc p ((loc p).got i)) unsaved := by
  have hkey := hs.filling p dev b i hp
  have hask := (h.asks p dev b i (.inr hp)).2
  have hu := h.unsaved_filling hs hp
  have hsame : ∀ j, ((io.fill p i).buf j).lock = (io.buf j).lock ∧ ((io.fill p i).buf j).dev = (io.buf j).dev ∧
      ((io.fill p i).buf j).blockno = (io.buf j).blockno ∧
      ((io.buf j).valid = true ∨ j = i → ((io.fill p i).buf j).valid = true) := by
    intro j
    unfold Io.fill
    split <;> by_cases hj : j = i <;> simp_all
  have hpc : (io.fill p i).pc = update io.pc p .out := by
    unfold Io.fill
    split <;> rfl
  have hheld : ∀ x, x ∈ ((loc p).got i).held a lh ↔ x ∈ (loc p).held a lh ∨ (x = (i, b) ∧ ∃ pc, loc p = .committing pc) := by
    intro x
    cases hl : loc p with
    | committing pc =>
      rw [hl] at hask
      simp only [Loc.got, Loc.held, mem_held_got hask]
      simp
    | _ => simp [Loc.got, Loc.held]
  have hmem : a.Mem b → ∃ pc, loc p = .committing pc := by
    intro hb
    cases hl : loc p with
    | committing pc => exact ⟨pc, rfl⟩
    | _ =>
      rw [hl] at hask
      exact absurd hb hask
  obtain ⟨asks, locks, held, saved⟩ := h
  refine ⟨?_, ?_, ?_, ?_⟩ <;> simp only [hpc, update_apply]
  · grind
  · intro j q hq
    rw [(hsame j).1] at hq
    rw [(hsame j).2.1, (hsame j).2.2.1]
    refine ⟨(locks j q hq).1, fun hm => ?_⟩
    by_cases hqp : q = p
    · subst hqp
      rcases (locks j q hq).2 hm with ⟨dev', b', hf⟩ | ⟨b', hb'⟩
      · rw [hp] at hf
        cases hf
        simp only [if_true]
        exact .inr ⟨b, (hheld _).mpr (.inr ⟨rfl, hmem (hkey.2.1 ▸ hm)⟩)⟩
      · simp only [if_true]
        exact .inr ⟨b', (hheld _).mpr (.inl hb')⟩
    · simpa only [if_neg hqp] using (locks j q hq).2 hm
  · grind
  · grind

theorem Claims.drop (hp : io.pc p = .dropping i) : Claims a (io.drop p i) lh loc unsaved := by
  have hsame : ∀ j, ((io.drop p i).buf j).lock = (io.buf j).lock ∧ ((io.drop p i).buf j).dev = (io.buf j).dev ∧
      ((io.drop p i).buf j).blockno = (io.buf j).blockno ∧ ((io.drop p i).buf j).valid = (io.buf j).valid := by
    intro j
    unfold Io.drop
    dsimp only
    split <;> by_cases hj : j = i <;> simp [hj]
  have hpc : (io.drop p i).pc = update io.pc p .out := by
    unfold Io.drop
    dsimp only
    split <;> rfl
  obtain ⟨asks, locks, held, saved⟩ := h
  refine ⟨?_, ?_, ?_, ?_⟩
  · simp only [hpc, update_apply]
    grind
  · simp only [hpc, update_apply]
    grind
  · grind
  · simp only [hpc, update_apply]
    grind

theorem Claims.brelse (hp : io.pc p = .out) (hu : unsaved i = false) {l : Loc}
    (hkeep : ∀ j b, (j, b) ∈ l.held a lh → (j, b) ∈ (loc p).held a lh ∧ j ≠ i)
    (hall : ∀ j b, (j, b) ∈ (loc p).held a lh → j ≠ i → (j, b) ∈ l.held a lh) (hg : io.brelse p i = .next io') :
    Claims a io' lh (update loc p l) unsaved := by
  unfold Io.brelse at hg
  split at hg
  · rename_i hlock
    cases hg
    obtain ⟨asks, locks, held, saved⟩ := h
    refine ⟨?_, ?_, ?_, ?_⟩ <;>
      simp only [Io.goto_buf, Io.modBuf_buf, Io.goto_pc, Io.modBuf_pc, update_apply]
    · grind
    · grind
    · grind
    · grind
  · cases hg

theorem Claims.goto (hp : io.pc p = .out) {l : Loc}
    (hheld : l.held a lh = (loc p).held a lh) : Claims a io lh (update loc p l) unsaved := by
  obtain ⟨asks, locks, held, saved⟩ := h
  refine ⟨?_, ?_, ?_, saved⟩ <;> simp only [update_apply]
  · grind
  · grind
  · grind

theorem Claims.moved {l : Loc} (hp : ∀ pc, loc p ≠ .committing pc)
    (hl : ∀ pc, l ≠ .committing pc) : Claims a io lh (update loc p l) unsaved := by
  have hheld : l.held a lh = (loc p).held a lh := by
    cases hlp : loc p <;> cases l <;> simp_all [Loc.held]
  have hasks : ∀ b, l.Asks a lh b ↔ (loc p).Asks a lh b := by
    intro b
    cases hlp : loc p <;> cases l <;> simp_all [Loc.Asks]
  obtain ⟨asks, locks, held, saved⟩ := h
  refine ⟨?_, ?_, ?_, saved⟩ <;> simp only [update_apply]
  · grind
  · grind
  · grind

theorem Claims.wakeup : Claims a io lh (wakeup loc) unsaved := by
  have hheld : ∀ q, Loc.held a lh (Log.wakeup loc q) = (loc q).held a lh := by
    intro q
    unfold Log.wakeup
    split
    · rename_i hq
      rw [hq]
      rfl
    · rfl
  have hasks : ∀ q b, Loc.Asks a lh b (Log.wakeup loc q) ↔ (loc q).Asks a lh b := by
    intro q b
    unfold Log.wakeup
    split
    · rename_i hq
      rw [hq]
      rfl
    · rfl
  obtain ⟨asks, locks, held, saved⟩ := h
  refine ⟨?_, ?_, ?_, saved⟩
  · simpa only [hasks] using asks
  · simpa only [hheld] using locks
  · simpa only [hheld] using held

theorem Claims.header {lh' : List BlockNo}
    (hq : ∀ q pc, loc q = .committing pc → io.pc q = .out ∧ pc.held a lh = [] ∧ pc.held a lh' = []) :
    Claims a io lh' loc unsaved := by
  have hheld : ∀ q, (loc q).held a lh' = (loc q).held a lh := by
    intro q
    cases hl : loc q with
    | committing pc =>
      obtain ⟨-, h1, h2⟩ := hq q pc hl
      simp only [Loc.held, h1, h2]
    | _ => rfl
  obtain ⟨asks, locks, held, saved⟩ := h
  refine ⟨?_, ?_, ?_, saved⟩
  · intro q dev b i hpc
    have := asks q dev b i hpc
    refine ⟨this.1, ?_⟩
    cases hl : loc q with
    | committing pc =>
      rw [(hq q pc hl).1] at hpc
      simp at hpc
    | _ =>
      rw [hl] at this
      exact this.2
  · simpa only [hheld] using locks
  · simpa only [hheld] using held

theorem Claims.modified (hp : io.pc p = .out) (hc : ∀ pc, loc p ≠ .committing pc)
    (hl : (io.buf i).lock = some p) : Claims a io lh loc (update unsaved i true) := by
  have hno : (loc p).held a lh = [] := by
    cases hlp : loc p <;> simp_all [Loc.held]
  obtain ⟨asks, locks, held, saved⟩ := h
  refine ⟨asks, locks, ?_, ?_⟩ <;> simp only [update_apply]
  · grind
  · grind

theorem Claims.recorded : Claims a io lh loc (update unsaved i false) := by
  obtain ⟨asks, locks, held, saved⟩ := h
  refine ⟨asks, locks, ?_, ?_⟩ <;> simp only [update_apply]
  · grind
  · grind

end

end Claims

/-! ## Where the contents are -/

/-- At a point of the commit (`start`, as long as none runs): the blocks of the transaction are pinned and
valid until they have been installed; every other block is on the disk; a buffer holds what was recorded;
and what has been logged is in the log. -/
structure Content (a : Area) (pc : CommitPc) (io : Io) (lh : List BlockNo) (store : BlockNo → Block)
    (unsaved : BufNo → Bool) : Prop where
  nodup : lh.Nodup
  home : ∀ b ∈ lh, ¬ a.Mem b
  room : lh = [] ∨ lh.length < a.size
  area : pc.inside = true → 0 < a.size
  tail : ∀ t, pc.tail = some t → t < lh.length
  pinned : ∀ i, (io.buf i).dev = ROOTDEV → (io.buf i).blockno ∈ lh.drop (pc.unpinned lh.length) → io.pins i = 1
  loose : ∀ i, ((io.buf i).dev = ROOTDEV → (io.buf i).blockno ∉ lh.drop (pc.unpinned lh.length)) → io.pins i = 0
  cached : ∀ b ∈ lh.drop (pc.unpinned lh.length),
    ∃ i, (io.buf i).dev = ROOTDEV ∧ (io.buf i).blockno = b ∧ (io.buf i).valid = true
  disk : ∀ b, ¬ a.Mem b → b ∉ lh.drop (pc.installed lh.length) → io.disk b = store b
  data : ∀ i, (io.buf i).dev = ROOTDEV → (io.buf i).valid = true → ¬ a.Mem (io.buf i).blockno → unsaved i = false →
    (io.buf i).data = store (io.buf i).blockno
  log : ∀ i, (io.buf i).dev = ROOTDEV → (io.buf i).valid = true → a.Mem (io.buf i).blockno → pc.unwritten ≠ some i →
    (io.buf i).data = io.disk (io.buf i).blockno
  logged : ∀ t, t < pc.logged lh.length → t < lh.length → io.disk (a.block t) = store (lh.getD t 0)
  copied : ∀ t dst src, pc = .logWrite t dst src → (io.buf dst).data = store (lh.getD t 0)

variable {a : Area} {pc pc' : CommitPc} {io io' : Io} {lh : List BlockNo} {store : BlockNo → Block}
  {unsaved : BufNo → Bool} {p : Slot} {i : BufNo} {dev : BitVec 32} {b : BlockNo}

section
variable (h : Content a pc io lh store unsaved)
include h

theorem Content.block_mem {t : ℕ} (ht : t < lh.length) : a.Mem (a.block t) := by
  refine Area.block_mem ?_
  rcases h.room with h0 | h0
  · rw [h0] at ht
    simp at ht
  · omega

theorem Content.block_ne {t t' : ℕ} (ht : t < lh.length) (ht' : t' < lh.length)
    (hne : t ≠ t') : a.block t ≠ a.block t' := by
  intro he
  rcases h.room with h0 | h0
  · rw [h0] at ht
    simp at ht
  · exact hne (Area.block_injective (by omega) (by omega) he)

theorem Content.home_getD {t : ℕ} (ht : t < lh.length) : ¬ a.Mem (lh.getD t 0) := by
  rw [List.getD_eq_getElem _ _ ht]
  exact h.home _ (List.getElem_mem ht)

theorem Content.congr (hdisk : io'.disk = io.disk) (hpins : io'.pins = io.pins)
    (hbuf : ∀ i, (io'.buf i).dev = (io.buf i).dev ∧ (io'.buf i).blockno = (io.buf i).blockno ∧ (io'.buf i).valid =
      (io.buf i).valid ∧ (io'.buf i).data = (io.buf i).data) :
    Content a pc io' lh store unsaved := by
  obtain ⟨nodup, home, room, area, tail, pinned, loose, cached, disk, data, log, logged, copied⟩ := h
  refine ⟨nodup, home, room, area, tail, ?_, ?_, ?_, ?_, ?_, ?_, ?_, ?_⟩
  · intro i
    rw [hpins, (hbuf i).1, (hbuf i).2.1]
    exact pinned i
  · intro i
    rw [hpins, (hbuf i).1, (hbuf i).2.1]
    exact loose i
  · intro b hb
    obtain ⟨i, hi⟩ := cached b hb
    exact ⟨i, by rw [(hbuf i).1, (hbuf i).2.1, (hbuf i).2.2.1]; exact hi⟩
  · rwa [hdisk]
  · intro i
    rw [(hbuf i).1, (hbuf i).2.1, (hbuf i).2.2.1, (hbuf i).2.2.2]
    exact data i
  · intro i
    rw [(hbuf i).1, (hbuf i).2.1, (hbuf i).2.2.1, (hbuf i).2.2.2, hdisk]
    exact log i
  · rwa [hdisk]
  · intro t dst src
    rw [(hbuf dst).2.2.2]
    exact copied t dst src

theorem Content.bget (hs : Sound io) (hf : Few io) (hun : ∀ i, pc.unwritten = some i → (io.buf i).lock ≠ none)
    (hdev : dev = ROOTDEV) (hg : io.bget p dev b = .next io') : Content a pc io' lh store unsaved := by
  cases hs.bget_cases hf hg with
  | found i hi he =>
    subst he
    refine h.congr rfl rfl fun j => ?_
    by_cases hj : j = i
    · subst hj
      simp
    · simp [hj]
  | recycled i hi hnew he =>
    subst he
    have hpins := hi.pins
    obtain ⟨nodup, home, room, area, tail, pinned, loose, cached, disk, data, log, logged, copied⟩ := h
    have hne : ∀ t dst src, pc = .logWrite t dst src → dst ≠ i := by
      rintro t dst src rfl rfl
      exact hun dst rfl hi.lock
    refine ⟨nodup, home, room, area, tail, ?_, ?_, ?_, disk, ?_, ?_, logged, ?_⟩ <;>
      simp only [Io.goto_buf, Io.modBuf_buf, Io.goto_pins, Io.modBuf_pins, Io.goto_disk, Io.modBuf_disk]
    · intro j
      by_cases hj : j = i
      · subst hj
        rw [update_self]
        intro _ hb
        obtain ⟨k, hk⟩ := cached b hb
        exact absurd ⟨hk.1.trans hdev.symm, hk.2.1⟩ (hnew k)
      · rw [update_of_ne hj]
        exact pinned j
    · intro j
      by_cases hj : j = i
      · subst hj
        exact fun _ => hpins
      · rw [update_of_ne hj]
        exact loose j
    · intro b' hb'
      obtain ⟨j, hj⟩ := cached b' hb'
      have hji : j ≠ i := by
        rintro rfl
        have := pinned j hj.1 (hj.2.1 ▸ hb')
        rw [hpins] at this
        cases this
      exact ⟨j, by rw [update_of_ne hji]; exact hj⟩
    · intro j
      by_cases hj : j = i
      · subst hj
        simp
      · rw [update_of_ne hj]
        exact data j
    · intro j
      by_cases hj : j = i
      · subst hj
        simp
      · rw [update_of_ne hj]
        exact log j
    · intro t dst src hpc
      rw [update_of_ne (hne t dst src hpc)]
      exact copied t dst src hpc

theorem Content.fill (hs : Sound io) (hdev : (io.buf i).dev = ROOTDEV)
    (hun : pc.unwritten = some i → (io.buf i).valid = true) : Content a pc (io.fill p i) lh store unsaved := by
  by_cases hv : (io.buf i).valid = true
  · refine h.congr ?_ ?_ fun j => ?_ <;> simp [Io.fill, hv]
  · have hdisk : ¬ a.Mem (io.buf i).blockno → io.disk (io.buf i).blockno = store (io.buf i).blockno := by
      intro hb
      refine h.disk _ hb fun hmem => ?_
      obtain ⟨j, hj⟩ := h.cached _ (List.drop_subset_drop_left lh CommitPc.unpinned_le_installed hmem)
      rw [hs.unique hdev hj.1 hj.2.1.symm] at hv
      exact hv hj.2.2
    obtain ⟨nodup, home, room, area, tail, pinned, loose, cached, disk, data, log, logged, copied⟩ := h
    refine ⟨nodup, home, room, area, tail, ?_, ?_, ?_, ?_, ?_, ?_, ?_, ?_⟩ <;>
      simp only [Io.fill, hv, Bool.false_eq_true, if_false, Io.goto_buf, Io.modBuf_buf, Io.goto_pins, Io.modBuf_pins,
        Io.goto_disk, Io.modBuf_disk, update_apply]
    · grind
    · grind
    · grind
    · exact disk
    · grind
    · grind
    · exact logged
    · intro t dst src hpc
      rw [if_neg]
      · exact copied t dst src hpc
      · rintro rfl
        exact hv (hun (by rw [hpc]; rfl))

theorem Content.goto (hpin : lh.drop (pc'.unpinned lh.length) = lh.drop (pc.unpinned lh.length))
    (hins : lh.drop (pc'.installed lh.length) = lh.drop (pc.installed lh.length))
    (hlog : ∀ t, t < pc'.logged lh.length → t < lh.length → t < pc.logged lh.length) (hun : pc.unwritten = none)
    (htail : ∀ t, pc'.tail = some t → t < lh.length) (harea : pc'.inside = true → 0 < a.size)
    (hcopied : pc'.unwritten = none) : Content a pc' io lh store unsaved := by
  obtain ⟨nodup, home, room, area, tail, pinned, loose, cached, disk, data, log, logged, copied⟩ := h
  refine ⟨nodup, home, room, harea, htail, ?_, ?_, ?_, ?_, data, ?_, ?_, ?_⟩
  · rwa [hpin]
  · rwa [hpin]
  · rwa [hpin]
  · rwa [hins]
  · exact fun i h1 h2 h3 _ => log i h1 h2 h3 (by rw [hun]; simp)
  · exact fun t h1 h2 => logged t (hlog t h1 h2) h2
  · rintro t dst src rfl
    cases hcopied

theorem Content.got (hw : pc.wants a lh = some b) : Content a (pc.got i) io lh store unsaved := by
  cases pc with
  | logTo t =>
    refine h.goto rfl rfl (fun _ h1 _ => h1) rfl (fun t' ht' => ?_) (fun _ => h.area rfl) rfl
    cases ht'
    by_contra ht
    simp [CommitPc.wants, ht] at hw
  | logFrom t dst => exact h.goto rfl rfl (fun _ h1 _ => h1) rfl h.tail (fun _ => h.area rfl) rfl
  | head erase => exact h.goto rfl rfl (fun _ h1 _ => h1) rfl h.tail (fun _ => h.area rfl) rfl
  | insLog t =>
    refine h.goto rfl rfl (fun _ h1 _ => h1) rfl (fun t' ht' => ?_) (fun _ => h.area rfl) rfl
    cases ht'
    by_contra ht
    simp [CommitPc.wants, ht] at hw
  | insDst t lbuf => exact h.goto rfl rfl (fun _ h1 _ => h1) rfl h.tail (fun _ => h.area rfl) rfl
  | _ => cases hw

theorem Content.modify (hb : ¬ a.Mem (io.buf i).blockno) (hne : pc.unwritten ≠ some i) (data : Block) :
    Content a pc (io.setData i data) lh store (update unsaved i true) := by
  obtain ⟨nodup, home, room, area, tail, pinned, loose, cached, disk, data, log, logged, copied⟩ := h
  refine ⟨nodup, home, room, area, tail, ?_, ?_, ?_, disk, ?_, ?_, logged, ?_⟩ <;> simp only [Io.setData_buf]
  · exact pinned
  · exact loose
  · exact cached
  · simp only [update_apply]
    grind
  · intro j h1 h2 h3 h4
    rw [if_neg]
    · exact log j h1 h2 h3 h4
    · rintro rfl
      exact hb h3
  · intro t dst src hpc
    rw [if_neg]
    · exact copied t dst src hpc
    · rintro rfl
      exact hne (by rw [hpc]; rfl)

end

theorem Content.logWrite (h : Content a .start io lh store unsaved) (hs : Sound io) (hdev : (io.buf i).dev = ROOTDEV)
    (hb : ¬ a.Mem (io.buf i).blockno) (hv : (io.buf i).valid = true) (hlt : (lh.length : ℤ) < a.size - 1) :
    Content a .start (if (io.buf i).blockno ∈ lh then io else io.bpin i) (absorb lh (io.buf i).blockno)
      (update store (io.buf i).blockno (io.buf i).data) (update unsaved i false) := by
  have hkey := fun j h1 => hs.unique (i := j) h1 hdev
  have hlen := length_absorb_le lh (io.buf i).blockno
  have hmem : ∀ c, c ∈ absorb lh (io.buf i).blockno ↔ c = (io.buf i).blockno ∨ c ∈ lh := fun c => mem_absorb
  have hbuf : ∀ j, ∃ r, ((if (io.buf i).blockno ∈ lh then io else io.bpin i).buf j) = { io.buf j with refcnt := r } := by
    intro j
    split
    · exact ⟨_, rfl⟩
    · exact ⟨_, io.bpin_buf i j⟩
  have hdisk : (if (io.buf i).blockno ∈ lh then io else io.bpin i).disk = io.disk := by
    split <;> rfl
  have hpins : ∀ j, (if (io.buf i).blockno ∈ lh then io else io.bpin i).pins j =
      if j = i ∧ (io.buf i).blockno ∉ lh then io.pins i + 1 else io.pins j := by
    intro j
    split
    · simp_all
    · by_cases hj : j = i
      · subst hj
        simp_all [Io.bpin]
      · simp [Io.bpin, hj]
  obtain ⟨nodup, home, room, area, tail, pinned, loose, cached, disk, data, log, logged, copied⟩ := h
  simp only [CommitPc.unpinned, CommitPc.installed, List.drop_zero] at pinned loose cached disk
  refine ⟨nodup_absorb nodup _, ?_, .inr (by omega), fun h0 => (by cases h0), fun _ h0 => (by cases h0), ?_, ?_, ?_, ?_,
    ?_, ?_, fun t h0 => absurd h0 (Nat.not_lt_zero t), fun _ _ _ h0 => by cases h0⟩
  · intro c hc
    rcases (hmem c).mp hc with rfl | hc
    · exact hb
    · exact home c hc
  · intro j
    obtain ⟨r, hr⟩ := hbuf j
    simp only [hr, hpins, CommitPc.unpinned, List.drop_zero, hmem]
    grind
  · intro j
    obtain ⟨r, hr⟩ := hbuf j
    simp only [hr, hpins, CommitPc.unpinned, List.drop_zero, hmem]
    grind
  · intro c hc
    simp only [CommitPc.unpinned, List.drop_zero, hmem] at hc
    rcases hc with rfl | hc
    · obtain ⟨r, hr⟩ := hbuf i
      exact ⟨i, by rw [hr]; exact ⟨hdev, rfl, hv⟩⟩
    · obtain ⟨j, hj⟩ := cached c hc
      obtain ⟨r, hr⟩ := hbuf j
      exact ⟨j, by rw [hr]; exact hj⟩
  · intro c hc hnot
    simp only [CommitPc.installed, CommitPc.unpinned, List.drop_zero, hmem, not_or] at hnot
    rw [hdisk, update_of_ne hnot.1]
    exact disk c hc hnot.2
  · intro j
    obtain ⟨r, hr⟩ := hbuf j
    simp only [hr, update_apply]
    grind
  · intro j
    obtain ⟨r, hr⟩ := hbuf j
    simp only [hr, hdisk]
    exact log j

theorem Content.bwrite (h : Content a pc io lh store unsaved) (hs : Sound io) (hdev : (io.buf i).dev = ROOTDEV)
    (hb : ¬ a.Mem (io.buf i).blockno) (hlh : pc = .start ∨ (io.buf i).blockno ∉ lh) :
    Content a pc { io with disk := update io.disk (io.buf i).blockno (io.buf i).data } lh
      (update store (io.buf i).blockno (io.buf i).data) (update unsaved i false) := by
  have hkey := fun j h1 => hs.unique (i := j) h1 hdev
  have hblock := fun t => h.block_mem (t := t)
  have hgetD : ∀ t, t < lh.length → (io.buf i).blockno ∉ lh → lh.getD t 0 ≠ (io.buf i).blockno := by
    intro t ht hnot he
    rw [List.getD_eq_getElem _ _ ht] at he
    exact hnot (he ▸ List.getElem_mem ht)
  obtain ⟨nodup, home, room, area, tail, pinned, loose, cached, disk, data, log, logged, copied⟩ := h
  refine ⟨nodup, home, room, area, tail, pinned, loose, cached, ?_, ?_, ?_, ?_, ?_⟩ <;> dsimp only
  · simp only [update_apply]
    grind
  · simp only [update_apply]
    grind
  · intro j h1 h2 h3 h4
    rw [update_of_ne]
    · exact log j h1 h2 h3 h4
    · intro he
      exact hb (he ▸ h3)
  · intro t h1 h2
    rcases hlh with rfl | hlh
    · cases h1
    · rw [update_of_ne, update_of_ne (hgetD t h2 hlh)]
      · exact logged t h1 h2
      · intro he
        exact hb (he ▸ hblock t h2)
  · intro t dst src hpc
    rcases hlh with rfl | hlh
    · cases hpc
    · rw [update_of_ne (hgetD t (tail t (by rw [hpc]; rfl)) hlh)]
      exact copied t dst src hpc

/-! ### The steps of the commit -/

/-- A buffer in a local variable of `commit`. -/
structure Holds (io : Io) (unsaved : BufNo → Bool) (i : BufNo) (b : BlockNo) : Prop where
  dev : (io.buf i).dev = ROOTDEV
  blockno : (io.buf i).blockno = b
  valid : (io.buf i).valid = true
  saved : unsaved i = false

variable {t : ℕ} {dst src buf lbuf dbuf : BufNo} {erase : Bool}

/-- `memmove(to->data, from->data, BSIZE)` -/
theorem Content.logCopy (h : Content a (.logCopy t dst src) io lh store unsaved) (hd : Holds io unsaved dst (a.block t))
    (hf : Holds io unsaved src (lh.getD t 0)) :
    Content a (.logWrite t dst src) (io.setData dst (io.buf src).data) lh store unsaved := by
  have ht := h.tail t rfl
  have hmem := h.block_mem ht
  have hfrom := h.data src hf.dev hf.valid (hf.blockno ▸ h.home_getD ht) hf.saved
  rw [hf.blockno] at hfrom
  obtain ⟨nodup, home, room, area, tail, pinned, loose, cached, disk, data, log, logged, -⟩ := h
  refine ⟨nodup, home, room, area, tail, ?_, ?_, ?_, disk, ?_, ?_, logged, ?_⟩ <;> simp only [Io.setData_buf]
  · exact pinned
  · exact loose
  · exact cached
  · intro j h1 h2 h3 h4
    rw [if_neg]
    · exact data j h1 h2 h3 h4
    · rintro rfl
      exact h3 (hd.blockno ▸ hmem)
  · intro j h1 h2 h3 h4
    rw [if_neg]
    · exact log j h1 h2 h3 (by simp [CommitPc.unwritten])
    · rintro rfl
      exact h4 rfl
  · rintro t' dst' src' he
    cases he
    rw [if_pos rfl, hfrom]

/-- `bwrite(to)` -/
theorem Content.logWrote (h : Content a (.logWrite t dst src) io lh store unsaved) (hs : Sound io)
    (hd : Holds io unsaved dst (a.block t)) :
    Content a (.logRelseFrom t dst src)
      { io with disk := update io.disk (io.buf dst).blockno (io.buf dst).data } lh store unsaved := by
  have ht := h.tail t rfl
  have hmem := h.block_mem ht
  have hcopied := h.copied t dst src rfl
  have hne : ∀ t', t' < lh.length → t < lh.length → t' ≠ t → a.block t' ≠ a.block t := fun t' => h.block_ne
  obtain ⟨nodup, home, room, area, tail, pinned, loose, cached, disk, data, log, logged, -⟩ := h
  rw [hd.blockno]
  refine ⟨nodup, home, room, area, tail, pinned, loose, cached, ?_, data, ?_, ?_, fun _ _ _ h0 => by cases h0⟩ <;>
    dsimp only
  · intro b hb hnot
    have hbt : b ≠ a.block t := fun he => hb (he ▸ hmem)
    rw [update_of_ne hbt]
    exact disk b hb hnot
  · intro j h1 h2 h3 _
    by_cases hj : j = dst
    · subst hj
      rw [hd.blockno, update_self]
    · rw [update_of_ne]
      · exact log j h1 h2 h3 (by simpa [CommitPc.unwritten] using Ne.symm hj)
      · intro he
        exact hj (hs.unique h1 hd.dev (he.trans hd.blockno.symm))
  · intro t' h1 h2
    by_cases htt : t' = t
    · rw [htt, update_self, hcopied]
    · rw [update_of_ne (hne t' h2 ht htt)]
      exact logged t' (Nat.lt_of_le_of_ne (Nat.lt_succ_iff.mp h1) htt) h2

/-- `hb->n = log.lh.n` and the block numbers -/
theorem Content.headFill (h : Content a (.headFill erase buf) io lh store unsaved) (hd : Holds io unsaved buf a.start)
    (data : Block) : Content a (.headWrite erase buf) (io.setData buf data) lh store unsaved := by
  have hmem : a.Mem a.start := Area.start_mem (h.area rfl)
  obtain ⟨nodup, home, room, area, tail, pinned, loose, cached, disk, data', log, logged, -⟩ := h
  refine ⟨nodup, home, room, area, tail, ?_, ?_, ?_, disk, ?_, ?_, logged, fun _ _ _ h0 => by cases h0⟩ <;>
    simp only [Io.setData_buf]
  · exact pinned
  · exact loose
  · exact cached
  · intro j h1 h2 h3 h4
    rw [if_neg]
    · exact data' j h1 h2 h3 h4
    · rintro rfl
      exact h3 (hd.blockno ▸ hmem)
  · intro j h1 h2 h3 h4
    rw [if_neg]
    · exact log j h1 h2 h3 (by simp [CommitPc.unwritten])
    · rintro rfl
      exact h4 rfl

theorem Content.headWrote (h : Content a (.headWrite erase buf) io lh store unsaved) (hs : Sound io)
    (hd : Holds io unsaved buf a.start) :
    Content a (.headRelse erase buf)
      { io with disk := update io.disk (io.buf buf).blockno (io.buf buf).data } lh store unsaved := by
  have hmem : a.Mem a.start := Area.start_mem (h.area rfl)
  have hne : ∀ t, t < lh.length → a.block t ≠ a.start := by
    intro t ht
    rcases h.room with h0 | h0
    · rw [h0] at ht
      simp at ht
    · exact Area.block_ne_start (by omega)
  obtain ⟨nodup, home, room, area, tail, pinned, loose, cached, disk, data, log, logged, -⟩ := h
  rw [hd.blockno]
  refine ⟨nodup, home, room, area, tail, pinned, loose, cached, ?_, data, ?_, ?_, fun _ _ _ h0 => by cases h0⟩ <;>
    dsimp only
  · intro b hb hnot
    have hbs : b ≠ a.start := fun he => hb (he ▸ hmem)
    rw [update_of_ne hbs]
    exact disk b hb hnot
  · intro j h1 h2 h3 _
    by_cases hj : j = buf
    · subst hj
      rw [hd.blockno, update_self]
    · rw [update_of_ne]
      · exact log j h1 h2 h3 (by simpa [CommitPc.unwritten] using Ne.symm hj)
      · intro he
        exact hj (hs.unique h1 hd.dev (he.trans hd.blockno.symm))
  · intro t h1 h2
    rw [update_of_ne (hne t h2)]
    exact logged t h1 h2

/-- `memmove(dbuf->data, lbuf->data, BSIZE)` -/
theorem Content.insCopy (h : Content a (.insCopy t lbuf dbuf) io lh store unsaved)
    (hl : Holds io unsaved lbuf (a.block t)) (hd : Holds io unsaved dbuf (lh.getD t 0)) :
    Content a (.insWrite t lbuf dbuf) (io.setData dbuf (io.buf lbuf).data) lh store unsaved := by
  have ht := h.tail t rfl
  have hhome := h.home_getD ht
  have hsame : (io.buf lbuf).data = store (lh.getD t 0) := by
    rw [h.log lbuf hl.dev hl.valid (hl.blockno ▸ h.block_mem ht) (by simp [CommitPc.unwritten]), hl.blockno]
    exact h.logged t ht ht
  obtain ⟨nodup, home, room, area, tail, pinned, loose, cached, disk, data, log, logged, -⟩ := h
  refine ⟨nodup, home, room, area, tail, ?_, ?_, ?_, disk, ?_, ?_, logged, fun _ _ _ h0 => by cases h0⟩ <;>
    simp only [Io.setData_buf]
  · exact pinned
  · exact loose
  · exact cached
  · intro j h1 h2 h3 h4
    split
    · rename_i hj
      rw [hj, hd.blockno, hsame]
    · exact data j h1 h2 h3 h4
  · intro j h1 h2 h3 h4
    rw [if_neg]
    · exact log j h1 h2 h3 h4
    · rintro rfl
      exact hhome (hd.blockno ▸ h3)

theorem notMem_drop_succ (hn : lh.Nodup) (ht : t < lh.length) : b ∉ lh.drop (t + 1) ↔ b = lh.getD t 0 ∨ b ∉ lh.drop t := by
  have hd : lh.drop t = lh.getD t 0 :: lh.drop (t + 1) := by
    rw [List.drop_eq_getElem_cons ht, List.getD_eq_getElem _ _ ht]
  have hnd := hn.sublist (List.drop_sublist t lh)
  rw [hd] at hnd ⊢
  rw [List.nodup_cons] at hnd
  rw [List.mem_cons, not_or]
  constructor
  · intro h
    by_cases hb : b = lh.getD t 0
    · exact .inl hb
    · exact .inr ⟨hb, h⟩
  · rintro (rfl | h)
    · exact hnd.1
    · exact h.2

/-- `bwrite(dbuf)` -/
theorem Content.insWrote (h : Content a (.insWrite t lbuf dbuf) io lh store unsaved)
    (hd : Holds io unsaved dbuf (lh.getD t 0)) :
    Content a (.insUnpin t lbuf dbuf)
      { io with disk := update io.disk (io.buf dbuf).blockno (io.buf dbuf).data } lh store unsaved := by
  have ht := h.tail t rfl
  have hhome := h.home_getD ht
  have hdata := h.data dbuf hd.dev hd.valid (hd.blockno ▸ hhome) hd.saved
  have hblock := fun t' => h.block_mem (t := t')
  obtain ⟨nodup, home, room, area, tail, pinned, loose, cached, disk, data, log, logged, -⟩ := h
  rw [hd.blockno] at hdata ⊢
  refine ⟨nodup, home, room, area, tail, pinned, loose, cached, ?_, data, ?_, ?_, fun _ _ _ h0 => by cases h0⟩ <;>
    dsimp only
  · intro b hb hnot
    by_cases hbt : b = lh.getD t 0
    · rw [hbt, update_self, hdata]
    · rw [update_of_ne hbt]
      exact disk b hb (((notMem_drop_succ nodup ht).mp hnot).resolve_left hbt)
  · intro j h1 h2 h3 h4
    have hne : (io.buf j).blockno ≠ lh.getD t 0 := fun he => hhome (he ▸ h3)
    rw [update_of_ne hne]
    exact log j h1 h2 h3 h4
  · intro t' h1 h2
    have hne : a.block t' ≠ lh.getD t 0 := fun he => hhome (he ▸ hblock t' h2)
    rw [update_of_ne hne]
    exact logged t' h1 h2

/-- `bunpin(dbuf)` -/
theorem Content.insUnpinned (h : Content a (.insUnpin t lbuf dbuf) io lh store unsaved) (hs : Sound io)
    (hd : Holds io unsaved dbuf (lh.getD t 0)) :
    Content a (.insRelseLog t lbuf dbuf) (io.bunpin dbuf) lh store unsaved := by
  have ht := h.tail t rfl
  have hmem : lh.getD t 0 ∈ lh.drop t := by
    rw [List.drop_eq_getElem_cons ht, List.getD_eq_getElem _ _ ht]
    exact List.mem_cons_self
  have hone := h.pinned dbuf hd.dev (hd.blockno ▸ hmem)
  obtain ⟨nodup, home, room, area, tail, pinned, loose, cached, disk, data, log, logged, -⟩ := h
  have hpins : ∀ j, (io.bunpin dbuf).pins j = if j = dbuf then 0 else io.pins j := by
    intro j
    by_cases hj : j = dbuf
    · subst hj
      simp [Io.bunpin, hone]
    · simp [Io.bunpin, hj]
  have hsub := List.drop_subset_drop_left lh (Nat.le_succ t)
  refine ⟨nodup, home, room, area, tail, ?_, ?_, ?_, disk, ?_, ?_, logged, fun _ _ _ h0 => by cases h0⟩ <;>
    simp only [Io.bunpin_buf]
  · intro j h1 h2
    rw [hpins, if_neg]
    · exact pinned j h1 (hsub h2)
    · rintro rfl
      exact (notMem_drop_succ nodup ht).mpr (.inl hd.blockno) h2
  · intro j h1
    rw [hpins]
    split
    · rfl
    · rename_i hj
      refine loose j fun h2 => ?_
      refine ((notMem_drop_succ nodup ht).mp (h1 h2)).resolve_left fun he => ?_
      exact hj (hs.unique h2 hd.dev (he.trans hd.blockno.symm))
  · exact fun c hc => cached c (hsub hc)
  · exact data
  · exact log

/-- `log.lh.n = 0` -/
theorem Content.clear (h : Content a .clear io lh store unsaved) : Content a (.head true) io [] store unsaved := by
  have hnil : lh.drop lh.length = [] := List.drop_length
  obtain ⟨nodup, home, room, area, tail, pinned, loose, cached, disk, data, log, logged, -⟩ := h
  simp only [CommitPc.unpinned, CommitPc.installed, hnil] at loose disk
  exact ⟨List.nodup_nil, by simp, .inl rfl, area, fun _ h0 => (by cases h0), by simp, fun i _ => loose i (by simp),
    by simp, fun b hb _ => disk b hb (by simp), data, log, by simp, fun _ _ _ h0 => by cases h0⟩

theorem Content.empty (h : Content a pc io [] store unsaved) (hun : pc.unwritten = none) (hun' : pc'.unwritten = none)
    (htail : pc'.tail = none) (harea : pc'.inside = true → 0 < a.size) : Content a pc' io [] store unsaved := by
  refine h.goto (by simp) (by simp) (fun t _ h0 => absurd h0 (Nat.not_lt_zero t)) hun (fun t h0 => ?_) harea hun'
  rw [htail] at h0
  cases h0

end Xv6Boot.Kernel.BlockStore
