import Xv6Boot.Kernel.OneStore

/-! # The buffers of a commit

A commit during which no other process uses the cache. Beside the buffers of the blocks its transaction has
pinned it needs one more at a time, for a log block or for the header, and it gives every buffer back.
-/

namespace Xv6Boot.Kernel.BlockStore
open Function Transition Counting Log ProcTable Bio

/-- Buffer `i` is the one of block `b`. -/
def Key (io : Io) (i : BufNo) (b : BlockNo) : Prop := (io.buf i).dev = ROOTDEV ∧ (io.buf i).blockno = b

theorem Key.iff {io : Io} {i : BufNo} {b b' : BlockNo} (h : Key io i b) : Key io i b' ↔ b' = b := by
  refine ⟨fun h' => h'.2.symm.trans h.2, ?_⟩
  rintro rfl
  exact h

/-- Only `p` uses the cache. It holds the buffers `held`; the blocks `pinned` are pinned, once each. -/
structure Alone (p : Slot) (io : Io) (held : Finset BufNo) (pinned : List BlockNo) : Prop where
  exact : Exact io
  out : ∀ q, io.pc q = .out
  lock : ∀ i, (io.buf i).lock = if i ∈ held then some p else none
  pins : ∀ i b, Key io i b → b ∈ pinned → io.pins i = 1
  loose : ∀ i, (∀ b ∈ pinned, ¬ Key io i b) → io.pins i = 0
  cached : ∀ b ∈ pinned, ∃ i, Key io i b

section Alone
variable {p : Slot} {io io' : Io} {held : Finset BufNo} {pinned : List BlockNo} {i : BufNo} {b : BlockNo}

section
variable (h : Alone p io held pinned)
include h

theorem Alone.users (i : BufNo) : io.users i = (if i ∈ held then 1 else 0) + io.pins i := by
  have hw : io.waiting i = 0 := count_eq_zero_iff.mpr fun q => by rw [h.out q]; rfl
  rw [Io.users, hw, h.lock i]
  split <;> simp

theorem Alone.pins_le (i : BufNo) : io.pins i ≤ 1 := by
  by_cases hi : ∃ b ∈ pinned, Key io i b
  · obtain ⟨b, hb, hk⟩ := hi
    exact (h.pins i b hk hb).le
  · push Not at hi
    rw [h.loose i hi]
    exact Nat.zero_le 1

theorem Alone.refcnt_eq_zero : (io.buf i).refcnt = 0 ↔ i ∉ held ∧ io.pins i = 0 := by
  have hle := h.pins_le i
  have hu := h.users i
  rw [h.exact.count i, ← BitVec.toNat_inj, BitVec.toNat_ofNat, hu]
  by_cases hi : i ∈ held
  · simp only [hi, if_true, not_true_eq_false, false_and, iff_false]
    change (1 + io.pins i) % 2 ^ 32 ≠ 0
    omega
  · simp only [hi, if_false, not_false_eq_true, true_and]
    change (0 + io.pins i) % 2 ^ 32 = 0 ↔ io.pins i = 0
    omega

theorem Alone.key_unique {j : BufNo} (hi : Key io i b) (hj : Key io j b) : i = j :=
  h.exact.unique hi.1 hj.1 (hi.2.trans hj.2.symm)

theorem Alone.exists_unpinned (hlen : pinned.length < NBUF) : ∃ i, io.pins i = 0 := by
  by_contra hno
  push Not at hno
  have hkey : ∀ i, (io.buf i).dev = ROOTDEV ∧ (io.buf i).blockno ∈ pinned := by
    intro i
    by_contra hi
    refine hno i (h.loose i fun b hb hk => hi ⟨hk.1, ?_⟩)
    rw [hk.2]
    exact hb
  have hcard : (Finset.univ : Finset BufNo).card ≤ pinned.toFinset.card := by
    refine Finset.card_le_card_of_injOn (fun i => (io.buf i).blockno) ?_ ?_
    · intro i _
      exact Finset.mem_coe.mpr (List.mem_toFinset.mpr (hkey i).2)
    · intro i _ j _ hij
      exact h.key_unique ⟨(hkey i).1, hij⟩ ⟨(hkey j).1, rfl⟩
  have hle := List.toFinset_card_le pinned
  rw [Finset.card_univ, Fintype.card_fin] at hcard
  omega

end

theorem Alone.unused (h : Alone p io ∅ pinned) (hlen : pinned.length < NBUF) : ∃ i, io.unused = some i := by
  obtain ⟨i, hi⟩ := h.exists_unpinned hlen
  rw [Io.unused, ← Option.isSome_iff_exists, List.find?_isSome]
  refine ⟨i, List.mem_reverse.mpr (h.exact.listed i), ?_⟩
  simpa using h.refcnt_eq_zero.mpr ⟨by simp, hi⟩

/-! ## One call on the cache -/

/-- What `bread` did: `p` has the buffer of block `b`, which it did not hold before. -/
structure Took (p : Slot) (io io' : Io) (held : Finset BufNo) (pinned : List BlockNo) (i : BufNo) (b : BlockNo) :
    Prop where
  alone : Alone p io' (insert i held) pinned
  new : i ∉ held
  key : Key io' i b
  others : ∀ j ∈ held, io'.buf j = io.buf j

def Breads (p : Slot) (b : BlockNo) (io io' : Io) (i : BufNo) : Prop :=
  ∃ io₁ io₂, io.bget p ROOTDEV b = .next io₁ ∧ io₁.pc p = .locking ROOTDEV b i ∧
    io₁.acquiresleep p i ROOTDEV b = .next io₂ ∧ io₂.pc p = .filling ROOTDEV b i ∧ io' = io₂.fill p i

section
variable (h : Alone p io held pinned)
include h

theorem Alone.lock_fill {f : Buf → Buf} (hi : i ∉ held)
    (hg : io.bget p ROOTDEV b = .next ((io.modBuf i f).goto p (.locking ROOTDEV b i)))
    (hf : (f (io.buf i)).dev = ROOTDEV ∧ (f (io.buf i)).blockno = b ∧ (f (io.buf i)).lock = (io.buf i).lock)
    (hold : ∀ b' ∈ pinned, Key io i b' ↔ b' = b) : ∃ io', Breads p b io io' i ∧ Took p io io' held pinned i b := by
  set io₁ := (io.modBuf i f).goto p (.locking ROOTDEV b i) with hio₁
  have hpc₁ : io₁.pc p = .locking ROOTDEV b i := by simp [hio₁]
  have hlock₁ : (io₁.buf i).lock = none := by simp [hio₁, hf.2.2, h.lock i, hi]
  have hacq : io₁.acquiresleep p i ROOTDEV b = .next ((io₁.modBuf i fun b => { b with lock := some p }).goto p
      (.filling ROOTDEV b i)) := if_pos hlock₁
  set io₂ := (io₁.modBuf i fun b => { b with lock := some p }).goto p (.filling ROOTDEV b i) with hio₂
  have hpc₂ : io₂.pc p = .filling ROOTDEV b i := by simp [hio₂]
  obtain ⟨g, hfill, data, hg'⟩ := io₂.fill_eq p i
  have hexact : Exact (io₂.fill p i) := ((h.exact.bget (h.out p) hg).acquiresleep hpc₁ hacq).fill hpc₂
  have hbuf : ∀ j, j ≠ i → (io₂.fill p i).buf j = io.buf j := by
    intro j hj
    rw [hfill]
    simp [hio₂, hio₁, hj]
  have hbuf_i : (io₂.fill p i).buf i = { f (io.buf i) with lock := some p, valid := true, data := data } := by
    rw [hfill, Io.goto_buf, Io.modBuf_buf, update_self, hg']
    simp [hio₂, hio₁]
  have hpins : (io₂.fill p i).pins = io.pins := by
    rw [hfill]
    simp [hio₂, hio₁]
  have hkey : Key (io₂.fill p i) i b := by
    rw [Key, hbuf_i]
    exact ⟨hf.1, hf.2.1⟩
  have hkeys : ∀ j b', b' ∈ pinned → (Key (io₂.fill p i) j b' ↔ Key io j b') := by
    intro j b' hb'
    by_cases hj : j = i
    · rw [hj, hold b' hb', hkey.iff]
    · rw [Key, Key, hbuf j hj]
  refine ⟨io₂.fill p i, ⟨io₁, io₂, hg, hpc₁, hacq, hpc₂, rfl⟩, ⟨hexact, fun q => ?_, fun j => ?_, ?_, ?_, ?_⟩, hi, hkey,
    fun j hj => hbuf j fun hji => hi (hji ▸ hj)⟩
  · rw [hfill]
    by_cases hq : q = p
    · simp [hq]
    · simp [hio₂, hio₁, hq, h.out q]
  · by_cases hj : j = i
    · rw [hj, hbuf_i]
      simp
    · rw [hbuf j hj, h.lock j]
      simp [hj]
  · intro j b' hk hb'
    rw [hpins]
    exact h.pins j b' ((hkeys j b' hb').mp hk) hb'
  · intro j hno
    rw [hpins]
    exact h.loose j fun b' hb' hk => hno b' hb' ((hkeys j b' hb').mpr hk)
  · intro b' hb'
    obtain ⟨j, hj⟩ := h.cached b' hb'
    exact ⟨j, (hkeys j b' hb').mpr hj⟩

theorem Alone.bread (hb : ∀ j ∈ held, (io.buf j).blockno ≠ b) (hroom : b ∈ pinned ∨ held = ∅ ∧ pinned.length < NBUF) :
    ∃ io' i, Breads p b io io' i ∧ Took p io io' held pinned i b := by
  cases hc : io.cached ROOTDEV b with
  | some i =>
    have hk : Key io i b := cached_some hc
    obtain ⟨io', hio'⟩ := h.lock_fill (f := fun b => { b with refcnt := b.refcnt + 1 })
      (fun hi => hb i hi hk.2) (by simp [Io.bget, hc]) ⟨hk.1, hk.2, rfl⟩ fun _ _ => hk.iff
    exact ⟨io', i, hio'⟩
  | none =>
    have hnone := h.exact.cached_none hc
    have hnot : b ∉ pinned := fun hm => (h.cached b hm).elim fun i hi => hnone i hi
    obtain ⟨rfl, hlen⟩ := hroom.resolve_left hnot
    obtain ⟨i, hu⟩ := h.unused hlen
    have hpins := (h.refcnt_eq_zero.mp (unused_some hu)).2
    obtain ⟨io', hio'⟩ := h.lock_fill
      (f := fun buf => { buf with dev := ROOTDEV, blockno := b, valid := false, refcnt := 1 }) (Finset.notMem_empty i)
      (by simp [Io.bget, hc, hu]) ⟨rfl, rfl, rfl⟩ fun b' hb' => by
        refine iff_of_false (fun hk => ?_) fun (he : b' = b) => hnot (he ▸ hb')
        rw [h.pins i b' hk hb'] at hpins
        cases hpins
    exact ⟨io', i, hio'⟩

theorem Alone.congr (hpc : io'.pc = io.pc) (hpins : io'.pins = io.pins) (horder : io'.order = io.order)
    (hbuf : ∀ i, (io'.buf i).dev = (io.buf i).dev ∧ (io'.buf i).blockno = (io.buf i).blockno ∧ (io'.buf i).lock =
      (io.buf i).lock ∧ (io'.buf i).refcnt = (io.buf i).refcnt) :
    Alone p io' held pinned := by
  have hkey : ∀ i b, Key io' i b ↔ Key io i b := fun i b => by rw [Key, Key, (hbuf i).1, (hbuf i).2.1]
  refine ⟨⟨?_, ?_, ?_⟩, ?_, ?_, ?_, ?_, ?_⟩
  · rw [horder]
    exact h.exact.listed
  · intro i j
    rw [(hbuf i).1, (hbuf i).2.1, (hbuf j).1, (hbuf j).2.1]
    exact h.exact.keys i j
  · intro i
    rw [(hbuf i).2.2.2, h.exact.count i, Io.users, Io.users, Io.waiting, Io.waiting, hpc, hpins, (hbuf i).2.2.1]
  · rw [hpc]
    exact h.out
  · intro i
    rw [(hbuf i).2.2.1]
    exact h.lock i
  · simpa only [hkey, hpins] using h.pins
  · simpa only [hkey, hpins] using h.loose
  · simpa only [hkey] using h.cached

theorem Alone.setData (i : BufNo) (data : Block) : Alone p (io.setData i data) held pinned :=
  h.congr rfl rfl rfl fun j => by simp [Io.setData_buf]

theorem Alone.bwrite (hi : i ∈ held) :
    ∃ io', io.bwrite p i = .next io' ∧ Alone p io' held pinned ∧ io'.buf = io.buf := by
  have hl : (io.buf i).lock = some p := by rw [h.lock i, if_pos hi]
  exact ⟨_, if_pos hl, h.congr rfl rfl rfl fun _ => ⟨rfl, rfl, rfl, rfl⟩, rfl⟩

theorem Alone.brelse (hi : i ∈ held) :
    ∃ io₁, io.brelse p i = .next io₁ ∧ io₁.pc p = .dropping i ∧ Alone p (io₁.drop p i) (held.erase i) pinned ∧
      ∀ j b, Key (io₁.drop p i) j b ↔ Key io j b := by
  have hl : (io.buf i).lock = some p := by rw [h.lock i, if_pos hi]
  have hg : io.brelse p i = .next ((io.modBuf i fun b => { b with lock := none }).goto p (.dropping i)) := if_pos hl
  set io₁ := (io.modBuf i fun b => { b with lock := none }).goto p (.dropping i) with hio₁
  have hpc : io₁.pc p = .dropping i := by simp [hio₁]
  have hexact : Exact (io₁.drop p i) := (h.exact.brelse (h.out p) hg).drop hpc
  have hdrop : (io₁.drop p i).buf = update io.buf i
      { io.buf i with lock := none, refcnt := (io.buf i).refcnt - 1 } := by
    unfold Io.drop
    dsimp only
    split <;> simp [hio₁]
  have hpins : (io₁.drop p i).pins = io.pins := by
    unfold Io.drop
    dsimp only
    split <;> simp [hio₁]
  have hpcs : (io₁.drop p i).pc = update io₁.pc p .out := by
    unfold Io.drop
    dsimp only
    split <;> simp
  have hkey : ∀ j b, Key (io₁.drop p i) j b ↔ Key io j b := by
    intro j b
    rw [Key, Key, hdrop]
    by_cases hj : j = i
    · simp [hj]
    · simp [hj]
  refine ⟨io₁, hg, hpc, ⟨hexact, fun q => ?_, fun j => ?_, ?_, ?_, ?_⟩, hkey⟩
  · rw [hpcs]
    by_cases hq : q = p
    · simp [hq]
    · simp [hio₁, hq, h.out q]
  · rw [hdrop]
    by_cases hj : j = i
    · simp [hj]
    · simp [hj, h.lock j]
  · simpa only [hkey, hpins] using h.pins
  · simpa only [hkey, hpins] using h.loose
  · simpa only [hkey] using h.cached

end

theorem Alone.bunpin {bs : List BlockNo} (h : Alone p io held (b :: bs)) (hb : b ∉ bs) (hi : Key io i b) :
    Alone p (io.bunpin i) held bs := by
  have hp : io.pins i = 1 := h.pins i b hi List.mem_cons_self
  have hkey : ∀ j b, Key (io.bunpin i) j b ↔ Key io j b := fun j b => by simp [Key, Io.bunpin_buf]
  have hpins : ∀ j, (io.bunpin i).pins j = if j = i then 0 else io.pins j := by
    intro j
    by_cases hj : j = i
    · simp [hj, Io.bunpin, hp]
    · simp [hj, Io.bunpin]
  refine ⟨h.exact.bunpin (by omega), h.out, fun j => ?_, fun j b' hk hb' => ?_, fun j hno => ?_, fun b' hb' => ?_⟩
  · rw [Io.bunpin_buf]
    exact h.lock j
  · rw [hkey] at hk
    have hj : j ≠ i := by
      rintro rfl
      exact hb (hi.2.symm.trans hk.2 ▸ hb')
    rw [hpins, if_neg hj]
    exact h.pins j b' hk (List.mem_cons_of_mem _ hb')
  · rw [hpins]
    split
    · rfl
    · rename_i hj
      refine h.loose j fun b' hb' hk => ?_
      rcases List.mem_cons.mp hb' with rfl | hb'
      · exact hj (h.key_unique hk hi)
      · exact hno b' hb' ((hkey j b').mpr hk)
  · obtain ⟨j, hj⟩ := h.cached b' (List.mem_cons_of_mem _ hb')
    exact ⟨j, (hkey j b').mpr hj⟩

end Alone

/-! ## The commit on its own -/

/-- Steps of `p` and of nobody else. -/
def Leads (a : Area) (p : Slot) : State → State → Prop :=
  Relation.ReflTransGen fun s s' => step a s (.go p) = .next s'

theorem Leads.single {a : Area} {p : Slot} {s s' : State} (h : step a s (.go p) = .next s') : Leads a p s s' :=
  Relation.ReflTransGen.single h

theorem Leads.trans {a : Area} {p : Slot} {s s' s'' : State} (h : Leads a p s s') (h' : Leads a p s' s'') :
    Leads a p s s'' := Relation.ReflTransGen.trans h h'

/-- `p` is at `pc` of the commit of `lh`. -/
structure At (p : Slot) (lh : List BlockNo) (pc : CommitPc) (held : Finset BufNo) (pinned : List BlockNo) (s : State) :
    Prop where
  lh : s.lh = lh
  loc : s.loc p = .committing pc
  alone : Alone p s.io held pinned

section Commit
variable {a : Area} {p : Slot} {s : State} {lh pinned : List BlockNo} {pc pc' : CommitPc} {held : Finset BufNo}
  {i : BufNo} {b : BlockNo}

theorem At.go (h : At p lh pc held pinned s) : step a s (.go p) = commitStep a p s pc := by
  simp only [step, BlockStore.go, h.alone.out p, h.loc]

theorem At.goto (h : At p lh pc held pinned s) (hst : commitStep a p s pc = .next (s.goto p (.committing pc'))) :
    ∃ s', Leads a p s s' ∧ At p lh pc' held pinned s' :=
  ⟨_, .single (h.go.trans hst), h.lh, update_self _ _ _, h.alone⟩

theorem At.clear (h : At p lh .clear held pinned s) : ∃ s', Leads a p s s' ∧ At p [] (.head true) held pinned s' :=
  ⟨_, .single h.go, rfl, update_self _ _ _, h.alone⟩

section
variable (h : At p lh pc held pinned s)
include h

theorem At.bread (hst : commitStep a p s pc = s.lift (s.io.bget p ROOTDEV b))
    (hb : ∀ j ∈ held, (s.io.buf j).blockno ≠ b) (hroom : b ∈ pinned ∨ held = ∅ ∧ pinned.length < NBUF) :
    ∃ s' i, Leads a p s s' ∧ At p lh (pc.got i) (insert i held) pinned s' ∧ i ∉ held ∧ Key s'.io i b ∧
      ∀ j ∈ held, s'.io.buf j = s.io.buf j := by
  obtain ⟨io', i, ⟨io₁, io₂, hg, hp₁, hacq, hp₂, rfl⟩, ht⟩ := h.alone.bread hb hroom
  have h₁ : step a s (.go p) = .next { s with io := io₁ } := by
    rw [h.go, hst, hg]
    rfl
  have h₂ : step a { s with io := io₁ } (.go p) = .next { s with io := io₂ } := by
    simp only [step, BlockStore.go, hp₁, hacq]
    rfl
  have h₃ : step a { s with io := io₂ } (.go p) =
      .next ({ s with io := io₂.fill p i }.goto p (.committing (pc.got i))) := by
    simp only [step, BlockStore.go, hp₂, h.loc]
    rfl
  exact ⟨_, i, ((Leads.single h₁).trans (.single h₂)).trans (.single h₃),
    ⟨h.lh, update_self _ _ _, ht.alone⟩, ht.new, ht.key, ht.others⟩

theorem At.setData {data : Block}
    (hst : commitStep a p s pc = .next ({ s with io := s.io.setData i data }.goto p (.committing pc'))) :
    ∃ s', Leads a p s s' ∧ At p lh pc' held pinned s' ∧ ∀ j b, Key s'.io j b ↔ Key s.io j b :=
  ⟨_, .single (h.go.trans hst), ⟨h.lh, update_self _ _ _, h.alone.setData i data⟩, fun j b => by
    simp [State.goto, Key, Io.setData_buf]⟩

theorem At.bwrite (hi : i ∈ held) (hst : commitStep a p s pc = (s.goto p (.committing pc')).lift (s.io.bwrite p i)) :
    ∃ s', Leads a p s s' ∧ At p lh pc' held pinned s' ∧ ∀ j b, Key s'.io j b ↔ Key s.io j b := by
  obtain ⟨io', hw, halone, hbuf⟩ := h.alone.bwrite hi
  refine ⟨{ s.goto p (.committing pc') with io := io' }, .single ?_, ⟨h.lh, update_self _ _ _, halone⟩,
    fun j b => by rw [Key, Key, hbuf]⟩
  rw [h.go, hst, hw]
  rfl

theorem At.brelse (hi : i ∈ held) (hst : commitStep a p s pc = (s.goto p (.committing pc')).lift (s.io.brelse p i)) :
    ∃ s', Leads a p s s' ∧ At p lh pc' (held.erase i) pinned s' ∧ ∀ j b, Key s'.io j b ↔ Key s.io j b := by
  obtain ⟨io₁, hw, hp, halone, hkey⟩ := h.alone.brelse hi
  have h₁ : step a s (.go p) = .next { s.goto p (.committing pc') with io := io₁ } := by
    rw [h.go, hst, hw]
    rfl
  have h₂ : step a { s.goto p (.committing pc') with io := io₁ } (.go p) =
      .next { s.goto p (.committing pc') with io := io₁.drop p i } := by
    simp only [step, BlockStore.go, hp]
  exact ⟨_, (Leads.single h₁).trans (.single h₂), ⟨h.lh, update_self _ _ _, halone⟩, hkey⟩

end

theorem At.bunpin {bs : List BlockNo} (h : At p lh pc held (b :: bs) s) (hb : b ∉ bs) (hi : Key s.io i b)
    (hst : commitStep a p s pc = .next ({ s with io := s.io.bunpin i }.goto p (.committing pc'))) :
    ∃ s', Leads a p s s' ∧ At p lh pc' held bs s' :=
  ⟨_, .single (h.go.trans hst), h.lh, update_self _ _ _, h.alone.bunpin hb hi⟩

/-- A transaction that fits: distinct blocks outside the log area, with a log block for each. -/
structure Room (a : Area) (lh : List BlockNo) : Prop where
  nodup : lh.Nodup
  home : ∀ b ∈ lh, ¬ a.Mem b
  lt : lh.length < a.size
  few : lh.length < NBUF

theorem getD_mem {t : ℕ} (ht : t < lh.length) : lh.getD t 0 ∈ lh := by
  rw [List.getD_eq_getElem _ _ ht]
  exact List.getElem_mem ht

variable (hr : Room a lh)
include hr

theorem Room.block_ne {t : ℕ} (ht : t < lh.length) : a.block t ≠ lh.getD t 0 := by
  intro he
  refine hr.home _ (getD_mem ht) ?_
  rw [← he]
  exact Area.block_mem (by have := hr.lt; omega)

theorem At.writeLog_turn {t : ℕ} (h : At p lh (.logTo t) ∅ lh s) (ht : t < lh.length) :
    ∃ s', Leads a p s s' ∧ At p lh (.logTo (t + 1)) ∅ lh s' := by
  obtain ⟨s₁, dst, r₁, h₁, -, k₁, -⟩ := h.bread (a := a) (b := a.block t) (by simp [commitStep, h.lh, ht]) (by simp)
    (.inr ⟨rfl, hr.few⟩)
  obtain ⟨s₂, src, r₂, h₂, hne, -, o₂⟩ := h₁.bread (a := a) (b := lh.getD t 0) (by
      simp [commitStep, h₁.lh, CommitPc.got]) (fun j hj => by
      obtain rfl : j = dst := by simpa using hj
      rw [k₁.2]
      exact hr.block_ne ht) (.inl (getD_mem ht))
  obtain ⟨s₃, r₃, h₃, -⟩ := h₂.setData (a := a) rfl
  obtain ⟨s₄, r₄, h₄, -⟩ := h₃.bwrite (a := a) (i := dst) (by simp) rfl
  obtain ⟨s₅, r₅, h₅, -⟩ := h₄.brelse (a := a) (i := src) (by simp) rfl
  rw [Finset.erase_insert hne] at h₅
  obtain ⟨s₆, r₆, h₆, -⟩ := h₅.brelse (a := a) (i := dst) (by simp) rfl
  rw [Finset.erase_insert (Finset.notMem_empty dst)] at h₆
  exact ⟨s₆, ((((r₁.trans r₂).trans r₃).trans r₄).trans r₅).trans r₆, h₆⟩

theorem At.writeLog {n t : ℕ} (h : At p lh (.logTo t) ∅ lh s) (ht : t + n = lh.length) :
    ∃ s', Leads a p s s' ∧ At p lh (.head false) ∅ lh s' := by
  induction n generalizing t s with
  | zero => exact h.goto (by simp [commitStep, h.lh, ← ht])
  | succ n ih =>
    obtain ⟨s₁, r₁, h₁⟩ := h.writeLog_turn hr (by omega)
    obtain ⟨s₂, r₂, h₂⟩ := ih h₁ (by omega)
    exact ⟨s₂, r₁.trans r₂, h₂⟩

omit hr in
theorem At.writeHead {erase : Bool} (h : At p lh (.head erase) ∅ pinned s) (hfew : pinned.length < NBUF) :
    ∃ s', Leads a p s s' ∧ At p lh (if erase then .done else .insLog 0) ∅ pinned s' := by
  obtain ⟨s₁, buf, r₁, h₁, -, -, -⟩ := h.bread (a := a) (b := a.start) rfl (by simp) (.inr ⟨rfl, hfew⟩)
  obtain ⟨s₂, r₂, h₂, -⟩ := h₁.setData (a := a) rfl
  obtain ⟨s₃, r₃, h₃, -⟩ := h₂.bwrite (a := a) (i := buf) (by simp) rfl
  obtain ⟨s₄, r₄, h₄, -⟩ := h₃.brelse (a := a) (i := buf) (by simp) rfl
  rw [Finset.erase_insert (Finset.notMem_empty buf)] at h₄
  exact ⟨s₄, ((r₁.trans r₂).trans r₃).trans r₄, h₄⟩

theorem At.installTrans_turn {t : ℕ} (h : At p lh (.insLog t) ∅ (lh.drop t) s) (ht : t < lh.length) :
    ∃ s', Leads a p s s' ∧ At p lh (.insLog (t + 1)) ∅ (lh.drop (t + 1)) s' := by
  have hdrop : lh.drop t = lh.getD t 0 :: lh.drop (t + 1) := by
    rw [List.getD_eq_getElem _ _ ht]
    exact List.drop_eq_getElem_cons ht
  have hnew : lh.getD t 0 ∉ lh.drop (t + 1) := by
    have hnd := hr.nodup.sublist (List.drop_sublist t lh)
    rw [hdrop] at hnd
    exact (List.nodup_cons.mp hnd).1
  have hlen : (lh.drop t).length < NBUF := by
    have := hr.few
    rw [List.length_drop]
    omega
  rw [hdrop] at h hlen
  obtain ⟨s₁, lbuf, r₁, h₁, -, k₁, -⟩ := h.bread (a := a) (b := a.block t) (by simp [commitStep, h.lh, ht]) (by simp)
    (.inr ⟨rfl, hlen⟩)
  obtain ⟨s₂, dbuf, r₂, h₂, hne, k₂, o₂⟩ := h₁.bread (a := a) (b := lh.getD t 0) (by
      simp [commitStep, h₁.lh, CommitPc.got]) (fun j hj => by
      obtain rfl : j = lbuf := by simpa using hj
      rw [k₁.2]
      exact hr.block_ne ht) (.inl List.mem_cons_self)
  obtain ⟨s₃, r₃, h₃, k₃⟩ := h₂.setData (a := a) rfl
  obtain ⟨s₄, r₄, h₄, k₄⟩ := h₃.bwrite (a := a) (i := dbuf) (by simp) rfl
  obtain ⟨s₅, r₅, h₅⟩ := h₄.bunpin (a := a) (i := dbuf) hnew ((k₄ _ _).mpr ((k₃ _ _).mpr k₂)) rfl
  obtain ⟨s₆, r₆, h₆, -⟩ := h₅.brelse (a := a) (i := lbuf) (by simp) rfl
  rw [Finset.insert_comm, Finset.erase_insert (by simpa [eq_comm] using hne)] at h₆
  obtain ⟨s₇, r₇, h₇, -⟩ := h₆.brelse (a := a) (i := dbuf) (by simp) rfl
  rw [Finset.erase_insert (Finset.notMem_empty dbuf)] at h₇
  exact ⟨s₇, (((((r₁.trans r₂).trans r₃).trans r₄).trans r₅).trans r₆).trans r₇, h₇⟩

theorem At.installTrans {n t : ℕ} (h : At p lh (.insLog t) ∅ (lh.drop t) s) (ht : t + n = lh.length) :
    ∃ s', Leads a p s s' ∧ At p lh .clear ∅ [] s' := by
  induction n generalizing t s with
  | zero =>
    rw [List.drop_eq_nil_of_le (by omega)] at h
    exact h.goto (by simp [commitStep, h.lh, ← ht])
  | succ n ih =>
    obtain ⟨s₁, r₁, h₁⟩ := h.installTrans_turn hr (by omega)
    obtain ⟨s₂, r₂, h₂⟩ := ih h₁ (by omega)
    exact ⟨s₂, r₁.trans r₂, h₂⟩

theorem At.commit (h : At p lh .start ∅ lh s) : ∃ s', Leads a p s s' ∧ At p [] .done ∅ [] s' := by
  by_cases hpos : 0 < lh.length
  · have hstart : commitStep a p s .start = .next (s.goto p (.committing (.logTo 0))) := by
      simp [commitStep, h.lh, hpos]
    obtain ⟨s₁, r₁, h₁⟩ := h.goto hstart
    obtain ⟨s₂, r₂, h₂⟩ := h₁.writeLog hr (Nat.zero_add _)
    obtain ⟨s₃, r₃, h₃⟩ := h₂.writeHead (a := a) hr.few
    obtain ⟨s₄, r₄, h₄⟩ := At.installTrans hr h₃ (Nat.zero_add _)
    obtain ⟨s₅, r₅, h₅⟩ := h₄.clear (a := a)
    obtain ⟨s₆, r₆, h₆⟩ := h₅.writeHead (a := a) (by decide)
    exact ⟨s₆, ((((r₁.trans r₂).trans r₃).trans r₄).trans r₅).trans r₆, h₆⟩
  · obtain rfl : lh = [] := List.length_eq_zero_iff.mp (by omega)
    exact h.goto (by simp [commitStep, h.lh])

end Commit

/-! ## States in which a commit starts -/

/-- `p` starts the commit, no process holds a buffer or is about to, and exactly the blocks of the
transaction are pinned, once each. -/
structure Ready (a : Area) (p : Slot) (s : State) : Prop where
  start : s.loc p = .committing .start
  cache : Exact s.io
  out : ∀ q, s.io.pc q = .out
  free : ∀ i, (s.io.buf i).lock = none
  nodup : s.lh.Nodup
  home : ∀ b ∈ s.lh, ¬ a.Mem b
  le : (s.lh.length : ℤ) ≤ a.size - 1
  pinned : ∀ b ∈ s.lh, ∃ i, Key s.io i b ∧ s.io.pins i = 1
  loose : ∀ i, (∀ b ∈ s.lh, ¬ Key s.io i b) → s.io.pins i = 0

theorem Ready.at {a : Area} {p : Slot} {s : State} (h : Ready a p s) : At p s.lh .start ∅ s.lh s := by
  refine ⟨rfl, h.start, h.cache, h.out, fun i => ?_, fun i b hk hb => ?_, h.loose, fun b hb => ?_⟩
  · simpa using h.free i
  · obtain ⟨j, hj, hp⟩ := h.pinned b hb
    rwa [h.cache.unique hk.1 hj.1 (hk.2.trans hj.2.symm)]
  · obtain ⟨i, hi, -⟩ := h.pinned b hb
    exact ⟨i, hi⟩

/-- Every state that disciplined processes reach, in which a commit starts while no process holds a buffer or
waits for one, is such a state. -/
theorem run_ready {a : Area} {io : Io} (hio : Fresh io) {es : List Action} {p : Slot} {s : State}
    (hrun : Run (step a) (Disciplined a) (init io) es s) (ha : 0 < a.size) (hl : s.loc p = .committing .start)
    (hout : ∀ q, s.io.pc q = .out) (hfree : ∀ i, (s.io.buf i).lock = none) : Ready a p s := by
  have h := run_inv hio hrun
  have hc := h.content .start (.commit p .start hl)
  refine ⟨hl, h.sound.toExact, hout, hfree, hc.nodup, hc.home, ?_, fun b hb => ?_, fun i hno => ?_⟩
  · rcases hc.room with hnil | hlt
    · rw [hnil, List.length_nil]
      omega
    · omega
  · obtain ⟨i, hd, hi, -⟩ := hc.cached b hb
    exact ⟨i, ⟨hd, hi⟩, hc.pinned i hd (hi ▸ hb)⟩
  · exact hc.loose i fun hd hm => hno _ hm ⟨hd, rfl⟩

/-- **A commit finds its buffers.** `write_log`, `write_head`, `install_trans` and the second `write_head`
are run to the end, and every buffer is free then. -/
theorem commit_finds_buffers (a : Area) (ha : a.size = LOGSIZE) (p : Slot) (s : State) (h : Ready a p s) :
    ∃ n s', exec (step a) (List.replicate n (.go p)) s = .next s' ∧ s'.loc p = .committing .done ∧ s'.lh = [] ∧
      ∀ i, (s'.io.buf i).refcnt = 0 := by
  have hle := h.le
  have hlt : s.lh.length < a.size := by omega
  have hr : Room a s.lh := ⟨h.nodup, h.home, hlt, by rw [ha] at hlt; exact hlt⟩
  obtain ⟨s', hlead, hdone⟩ := h.at.commit hr
  obtain ⟨n, hn⟩ := exists_exec_replicate hlead
  refine ⟨n, s', hn, hdone.loc, hdone.lh, fun i => ?_⟩
  exact hdone.alone.refcnt_eq_zero.mpr ⟨Finset.notMem_empty i, hdone.alone.loose i (by simp)⟩

def fullTransaction : State where
  io := {
    buf := fun i => if i.val < 29 then ⟨true, ROOTDEV, BitVec.ofNat 32 (100 + i), none, 1, fun _ => 7⟩
      else ⟨false, 0, 0, none, 0, fun _ => 0⟩
    order := List.finRange NBUF
    disk := fun _ _ => 0
    pc := fun _ => .out
    pins := fun i => if i.val < 29 then 1 else 0 }
  outstanding := 0
  committing := true
  lh := (List.range 29).map fun i => BitVec.ofNat 32 (100 + i)
  loc := fun q => if q = initproc then .committing .start else .idle
  store := fun _ _ => 7
  unsaved := fun _ => false

theorem fullTransaction_mem {b : BlockNo} : b ∈ fullTransaction.lh ↔ ∃ i < 29, BitVec.ofNat 32 (100 + i) = b := by
  simp [fullTransaction]

theorem ofNat_block_inj {i j : ℕ} (hi : i < 30) (hj : j < 30)
    (h : BitVec.ofNat 32 (100 + i) = BitVec.ofNat 32 (100 + j)) : i = j := by
  have := congrArg BitVec.toNat h
  simp only [BitVec.toNat_ofNat] at this
  omega

theorem fullTransaction_key {i : BufNo} {b : BlockNo} :
    Key fullTransaction.io i b ↔ i.val < 29 ∧ BitVec.ofNat 32 (100 + i) = b := by
  by_cases hi : i.val < 29
  · simp [Key, fullTransaction, hi]
  · simp [Key, fullTransaction, hi, ROOTDEV]

theorem fullTransaction_ready : Ready sampleArea initproc fullTransaction := by
  have hpins : ∀ i, fullTransaction.io.pins i = if i.val < 29 then 1 else 0 := fun _ => rfl
  refine ⟨rfl, ⟨fun i => List.mem_finRange i, fun i j h0 hd hb => ?_, fun i => ?_⟩, fun _ => rfl, fun i => ?_, ?_,
    fun b hb hm => ?_, ?_, fun b hb => ?_, fun i hno => ?_⟩
  · have hi : i.val < 29 := by
      by_contra hi
      simp [fullTransaction, hi] at h0
    have hk : Key fullTransaction.io j (BitVec.ofNat 32 (100 + i)) := by
      have := fullTransaction_key.mpr ⟨hi, rfl⟩
      exact ⟨hd.symm.trans this.1, hb.symm.trans this.2⟩
    have hj := fullTransaction_key.mp hk
    exact Fin.ext (ofNat_block_inj (by omega) (by omega) hj.2.symm)
  · have hw : fullTransaction.io.waiting i = 0 := count_eq_zero_iff.mpr fun _ => rfl
    rw [Io.users, hw, hpins]
    by_cases hi : i.val < 29
    · simp [fullTransaction, hi]
    · simp [fullTransaction, hi]
  · by_cases hi : i.val < 29
    · simp [fullTransaction, hi]
    · simp [fullTransaction, hi]
  · refine List.Nodup.map_on (fun i hi j hj h => ?_) List.nodup_range
    rw [List.mem_range] at hi hj
    exact ofNat_block_inj (by omega) (by omega) h
  · obtain ⟨i, hi, rfl⟩ := fullTransaction_mem.mp hb
    simp only [Area.Mem, sampleArea, BitVec.toNat_sub, BitVec.toNat_ofNat] at hm
    omega
  · simp [fullTransaction, sampleArea]
  · obtain ⟨i, hi, rfl⟩ := fullTransaction_mem.mp hb
    exact ⟨⟨i, by unfold NBUF MAXOPBLOCKS; omega⟩, fullTransaction_key.mpr ⟨hi, rfl⟩, if_pos hi⟩
  · refine if_neg fun hi => hno _ (fullTransaction_mem.mpr ⟨i, hi, rfl⟩) (fullTransaction_key.mpr ⟨hi, rfl⟩)

theorem fullTransaction_commits : ∃ n s', exec (step sampleArea) (List.replicate n (.go initproc)) fullTransaction =
    .next s' ∧ s'.loc initproc = .committing .done ∧ s'.lh = [] ∧ ∀ i, (s'.io.buf i).refcnt = 0 :=
  commit_finds_buffers sampleArea rfl initproc fullTransaction fullTransaction_ready

end Xv6Boot.Kernel.BlockStore
