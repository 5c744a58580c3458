import Xv6Boot.Kernel.Coherence

/-! # What `bread` returns

Along every run of disciplined clients `bread` returns what was last recorded for the block, and the blocks
of a transaction stay pinned until they are installed.
-/

namespace Xv6Boot.Kernel.BlockStore
open Function Transition Counting Log ProcTable Bio

/-! ## The discipline -/

/-- A client works on blocks of the root device outside the log area. It logs only blocks it holds and only
inside an operation, and gives a modified buffer back only after a `log_write` or a `bwrite`. -/
def Client (a : Area) (s : State) : Action → Prop
  | .bread _ dev b => dev = ROOTDEV ∧ ¬ a.Mem b
  | .logWrite p i => (s.io.buf i).lock = some p ∧ s.loc p = .inOp ()
  | .brelse _ i => s.unsaved i = false
  | _ => True

/-- No `bwrite` of a block of the transaction that is being committed. -/
def Apart (s : State) : Action → Prop
  | .bwrite _ i => s.committing = true → (s.io.buf i).blockno ∉ s.lh
  | _ => True

def Disciplined (a : Area) (s : State) (e : Action) : Prop := Client a s e ∧ Apart s e

instance (a : Area) (b : BlockNo) : Decidable (a.Mem b) := inferInstanceAs (Decidable (_ < _))

instance (a : Area) (s : State) (e : Action) : Decidable (Client a s e) :=
  match e with
  | .bread _ _ _ | .logWrite _ _ => inferInstanceAs (Decidable (_ ∧ _))
  | .brelse _ _ => inferInstanceAs (Decidable (_ = _))
  | .modify _ _ _ | .bwrite _ _ | .beginOp _ | .endOp _ | .go _ | .kill _ => inferInstanceAs (Decidable True)

instance (s : State) (e : Action) : Decidable (Apart s e) :=
  match e with
  | .bwrite _ _ => inferInstanceAs (Decidable (_ → _))
  | .bread _ _ _ | .logWrite _ _ | .brelse _ _ | .modify _ _ _ | .beginOp _ | .endOp _ | .go _ | .kill _ =>
    inferInstanceAs (Decidable True)

instance (a : Area) (s : State) (e : Action) : Decidable (Disciplined a s e) := inferInstanceAs (Decidable (_ ∧ _))

/-! ## The invariant -/

/-- Where the commit is, if one runs. -/
inductive Phase (s : State) : CommitPc → Prop
  | opened (h : s.committing = false) : Phase s .start
  | commit (p : Slot) (pc : CommitPc) (h : s.loc p = .committing pc) : Phase s pc

structure Inv (a : Area) (s : State) : Prop where
  sound : Sound s.io
  books : s.Booked
  claims : Claims a s.io s.lh s.loc s.unsaved
  content : ∀ pc, Phase s pc → Content a pc s.io s.lh s.store s.unsaved

variable {b : BlockNo} {dev : BitVec 32}

section Inv
variable {a : Area} {s s' : State} {p : Slot} {i : BufNo} {pc pc' : CommitPc} {io : Io}

theorem Phase.congr (h : Phase s' pc) (hc : s'.committing = s.committing) (hl : s'.loc = s.loc) : Phase s pc := by
  cases h with
  | opened h => exact .opened (hc ▸ h)
  | commit p _ h => exact .commit p pc (hl ▸ h)

theorem Inv.exists_phase (h : Inv a s) : ∃ pc, Phase s pc := by
  cases hc : s.committing with
  | false => exact ⟨.start, .opened hc⟩
  | true =>
    obtain ⟨p, pc, hp⟩ := h.books.busy.mp hc
    exact ⟨pc, .commit p pc hp⟩

theorem Phase.of_goto {pc'' : CommitPc} (hph : Phase s' pc'') (h : Inv a s) (hp : s.loc p = .committing pc)
    (hc : s'.committing = s.committing) (hl : s'.loc = update s.loc p (.committing pc')) : pc'' = pc' := by
  have hbusy := h.books.busy.mpr ⟨p, pc, hp⟩
  cases hph with
  | opened h0 =>
    rw [hc, hbusy] at h0
    cases h0
  | commit q _ hq =>
    rw [hl] at hq
    by_cases hqp : q = p
    · rw [hqp, update_self] at hq
      exact (Loc.committing.inj hq).symm
    · rw [update_of_ne hqp] at hq
      exact absurd (h.books.one q p _ _ hq hp) hqp

theorem Inv.few (h : Inv a s) : Few s.io := by
  obtain ⟨pc, hph⟩ := h.exists_phase
  have hc := h.content pc hph
  refine few_of_pins fun i => ?_
  by_cases hi : (s.io.buf i).dev = ROOTDEV ∧ (s.io.buf i).blockno ∈ s.lh.drop (pc.unpinned s.lh.length)
  · exact (hc.pinned i hi.1 hi.2).le
  · rw [hc.loose i fun h1 h2 => hi ⟨h1, h2⟩]
    exact Nat.zero_le 1

theorem Inv.holds (h : Inv a s) (hp : s.loc p = .committing pc) (hm : (i, b) ∈ pc.held a s.lh) :
    Holds s.io s.unsaved i b ∧ (s.io.buf i).lock = some p := by
  have hm' : (i, b) ∈ Loc.held a s.lh (s.loc p) := by
    rw [hp]
    exact hm
  obtain ⟨hl, hb, hv, hu⟩ := h.claims.held p i b hm'
  exact ⟨⟨(h.claims.locks i p hl).1, hb, hv, hu⟩, hl⟩

theorem CommitPc.unwritten_held {lh : List BlockNo} (hu : pc.unwritten = some i) : ∃ b, (i, b) ∈ pc.held a lh := by
  cases pc <;> simp_all [CommitPc.unwritten, CommitPc.held]

theorem Inv.unwritten (h : Inv a s) (hph : Phase s pc) (hu : pc.unwritten = some i) :
    ∃ q, s.loc q = .committing pc ∧ (s.io.buf i).lock = some q ∧ (s.io.buf i).valid = true := by
  cases hph with
  | opened _ => cases hu
  | commit q _ hq =>
    obtain ⟨b, hb⟩ : ∃ b, (i, b) ∈ pc.held a s.lh := CommitPc.unwritten_held hu
    obtain ⟨hh, hl⟩ := h.holds hq hb
    exact ⟨q, hq, hl, hh.valid⟩

theorem State.Free.not_committing (h : s.Free p) (pc : CommitPc) : s.loc p ≠ .committing pc := by
  rcases h.2 with h | h <;> simp [h]

theorem State.Free.held (h : s.Free p) : Loc.held a s.lh (s.loc p) = [] := by
  rcases h.2 with h | h <;> simp [h, Loc.held]

theorem Inv.client_holds (h : Inv a s) (hp : s.Free p) (hl : (s.io.buf i).lock = some p) :
    (s.io.buf i).dev = ROOTDEV ∧ ¬ a.Mem (s.io.buf i).blockno ∧ (s.io.buf i).valid = true := by
  have hpc := hp.1
  obtain ⟨hdev, hmem⟩ := h.claims.locks i p hl
  refine ⟨hdev, fun hm => ?_, ?_⟩
  · rcases hmem hm with ⟨dev, b, hf⟩ | ⟨b, hb⟩
    · rw [hpc] at hf
      cases hf
    · rw [hp.held] at hb
      cases hb
  · rcases h.sound.valid i p hl with hv | ⟨dev, b, hf⟩
    · exact hv
    · rw [hpc] at hf
      cases hf

theorem Inv.client_ne_unwritten (h : Inv a s) (hp : s.Free p) (hl : (s.io.buf i).lock = some p) (hph : Phase s pc) :
    pc.unwritten ≠ some i := by
  intro hu
  obtain ⟨q, hq, hlq, -⟩ := h.unwritten hph hu
  rw [hl] at hlq
  cases hlq
  exact hp.not_committing pc hq

/-! ## Steps of the clients -/

theorem bwrite_eq {io' : Io} (h : io.bwrite p i = .next io') : (io.buf i).lock = some p ∧
    io' = { io with disk := update io.disk (io.buf i).blockno (io.buf i).data } := by
  unfold Io.bwrite at h
  split at h
  · rename_i hl
    cases h
    exact ⟨hl, rfl⟩
  · cases h

theorem Inv.read (h : Inv a s) (hp : s.io.pc p = .out) (hask : Loc.Asks a s.lh b (s.loc p))
    (hg : s.io.bget p ROOTDEV b = .next io) : Inv a { s with io := io } := by
  refine ⟨h.sound.bget h.few hp hg, h.books, h.claims.bget h.sound h.few hp rfl hask hg, fun pc hph => ?_⟩
  have hph' : Phase s pc := hph.congr rfl rfl
  refine (h.content pc hph').bget h.sound h.few (fun i hu => ?_) rfl hg
  obtain ⟨q, -, hl, -⟩ := h.unwritten hph' hu
  simp [hl]

theorem Inv.modify (h : Inv a s) (hp : s.Free p) (hl : (s.io.buf i).lock = some p) (data : Block) :
    Inv a { s with io := s.io.setData i data, unsaved := update s.unsaved i true } := by
  have hc := h.client_holds hp hl
  refine ⟨h.sound.setData data, h.books, ?_, fun pc hph => ?_⟩
  · refine (h.claims.modified hp.1 hp.not_committing hl).congr rfl fun j => ?_
    rw [Io.setData_buf]
    exact ⟨rfl, rfl, rfl, rfl⟩
  · have hph' : Phase s pc := hph.congr rfl rfl
    exact (h.content pc hph').modify hc.2.1 (h.client_ne_unwritten hp hl hph') data

theorem Inv.logWrite (h : Inv a s) (hp : s.Free p) (hl : (s.io.buf i).lock = some p) (hop : s.loc p = .inOp ())
    (hlt : (s.lh.length : ℤ) < a.size - 1) :
    Inv a { s with io := if (s.io.buf i).blockno ∈ s.lh then s.io else s.io.bpin i,
                   lh := absorb s.lh (s.io.buf i).blockno,
                   store := update s.store (s.io.buf i).blockno (s.io.buf i).data,
                   unsaved := update s.unsaved i false } := by
  obtain ⟨hdev, hb, hv⟩ := h.client_holds hp hl
  have hcm := h.books.not_committing hop
  have hnone := h.books.not_busy hcm
  refine ⟨?_, h.books.wrote hop _, ?_, fun pc hph => ?_⟩
  · dsimp only
    split
    · exact h.sound
    · exact h.sound.bpin
  · refine ((h.claims.recorded (i := i)).header fun q pc hq => absurd hq (hnone q pc)).congr ?_ fun j => ?_ <;> dsimp only
    · split <;> rfl
    · split
      · exact ⟨rfl, rfl, rfl, rfl⟩
      · rw [Io.bpin_buf]
        exact ⟨rfl, rfl, rfl, rfl⟩
  · have hph' : Phase s pc := hph.congr rfl rfl
    cases hph' with
    | opened _ => exact (h.content _ (.opened hcm)).logWrite h.sound hdev hb hv hlt
    | commit q _ hq => exact absurd hq (hnone q pc)

theorem Inv.bwrite (h : Inv a s) (hp : s.Free p) (hok : s.committing = true → (s.io.buf i).blockno ∉ s.lh)
    (hg : s.io.bwrite p i = .next io) :
    Inv a { s with io := io, store := update s.store (s.io.buf i).blockno (s.io.buf i).data,
                   unsaved := update s.unsaved i false } := by
  obtain ⟨hl, he⟩ := bwrite_eq hg
  obtain ⟨hdev, hb, hv⟩ := h.client_holds hp hl
  refine ⟨h.sound.bwrite hg, h.books, ?_, fun pc hph => ?_⟩
  · subst he
    exact h.claims.recorded.congr rfl fun j => ⟨rfl, rfl, rfl, rfl⟩
  · subst he
    have hph' : Phase s pc := hph.congr rfl rfl
    refine (h.content pc hph').bwrite h.sound hdev hb ?_
    cases hph' with
    | opened _ => exact .inl rfl
    | commit q _ hq => exact .inr (hok (h.books.busy.mpr ⟨q, pc, hq⟩))

theorem Content.relse {io' : Io} {lh : List BlockNo} {store : BlockNo → Block} {unsaved : BufNo → Bool}
    (h : Content a pc io lh store unsaved) (hg : io.brelse p i = .next io') : Content a pc io' lh store unsaved := by
  unfold Io.brelse at hg
  split at hg
  · cases hg
    refine h.congr rfl rfl fun j => ?_
    by_cases hj : j = i
    · subst hj
      simp
    · simp [hj]
  · cases hg

theorem Inv.brelse (h : Inv a s) (hp : s.Free p) (hu : s.unsaved i = false) (hg : s.io.brelse p i = .next io) :
    Inv a { s with io := io } := by
  refine ⟨h.sound.brelse hp.1 hg, h.books, ?_, fun pc hph => (h.content pc (hph.congr rfl rfl)).relse hg⟩
  have := h.claims.brelse (l := s.loc p) hp.1 hu (fun j b hb => by rw [hp.held] at hb; cases hb)
    (fun j b hb _ => hb) hg
  rwa [update_eq_self] at this

theorem Inv.acquire (h : Inv a s) (hp : s.io.pc p = .locking dev b i) (hg : s.io.acquiresleep p i dev b = .next io) :
    Inv a { s with io := io } := by
  refine ⟨h.sound.acquiresleep hp hg, h.books, h.claims.acquire h.sound hp hg, fun pc hph => ?_⟩
  have hc := h.content pc (hph.congr rfl rfl)
  unfold Io.acquiresleep at hg
  split at hg
  · cases hg
    refine hc.congr rfl rfl fun j => ?_
    by_cases hj : j = i
    · subst hj
      simp
    · simp [hj]
  · cases hg

theorem Inv.drop (h : Inv a s) (hp : s.io.pc p = .dropping i) : Inv a { s with io := s.io.drop p i } := by
  refine ⟨h.sound.drop hp, h.books, h.claims.drop hp, fun pc hph => ?_⟩
  refine (h.content pc (hph.congr rfl rfl)).congr ?_ ?_ fun j => ?_ <;> dsimp only [Io.drop]
  · split <;> rfl
  · split <;> rfl
  · split <;> by_cases hj : j = i <;> simp [hj]

theorem Inv.fill (h : Inv a s) (hp : s.io.pc p = .filling dev b i) :
    Inv a ({ s with io := s.io.fill p i }.goto p (Loc.got i (s.loc p))) := by
  have hask := h.claims.asks p dev b i (.inr hp)
  have hkey := h.sound.filling p dev b i hp
  have hfill : ∀ pc, Phase s pc → Content a pc (s.io.fill p i) s.lh s.store s.unsaved := by
    intro pc hph
    refine (h.content pc hph).fill h.sound (hkey.1.trans hask.1) fun hu => ?_
    obtain ⟨q, -, -, hv⟩ := h.unwritten hph hu
    exact hv
  cases hl : s.loc p with
  | committing pc =>
    have hw : pc.wants a s.lh = some b := by
      rw [hl] at hask
      exact hask.2
    refine ⟨h.sound.fill hp, ?_, ?_, fun pc' hph => ?_⟩
    · refine Books.jump h.books hl fun hcl => ?_
      refine h.books.cleared p pc hl ?_
      cases pc <;> simp_all [CommitPc.got, CommitPc.cleared]
    · have := h.claims.fill h.sound hp
      rwa [hl] at this
    · obtain rfl := hph.of_goto h hl rfl rfl
      exact (hfill pc (.commit p pc hl)).got hw
  | _ =>
    have hsame : update s.loc p (Loc.got i (s.loc p)) = s.loc := by
      rw [hl]
      simp only [Loc.got]
      rw [← hl, update_eq_self]
    rw [← hl]
    refine ⟨h.sound.fill hp, ?_, h.claims.fill h.sound hp, fun pc hph => hfill pc (hph.congr rfl hsame)⟩
    have := h.books
    unfold State.Booked at this ⊢
    simpa only [State.goto, hsame] using this

/-! ## Steps of the log -/

theorem Inv.moved (h : Inv a s) {l : Loc} (hp : (s.loc p).outside = true) (hl : l.outside = true) :
    Inv a (s.goto p l) := by
  have h1 : ∀ pc, s.loc p ≠ .committing pc := fun pc he => by rw [he] at hp; cases hp
  have h2 : ∀ pc, l ≠ .committing pc := fun pc he => by rw [he] at hl; cases hl
  refine ⟨h.sound, h.books.moved hp hl, h.claims.moved h1 h2, fun pc hph => h.content pc ?_⟩
  cases hph with
  | opened hc => exact .opened hc
  | commit q _ hq =>
    refine .commit q pc ?_
    simp only [State.goto, update_apply] at hq
    split at hq
    · exact absurd hq (h2 pc)
    · exact hq

theorem Inv.entered (h : Inv a s) (hp : s.loc p = .entering) (hc : s.committing = false) :
    Inv a { s.goto p (.inOp ()) with outstanding := s.outstanding + 1 } := by
  refine ⟨h.sound, Books.entered h.books hp hc _, h.claims.moved (by simp [hp]) (by simp), fun pc hph => ?_⟩
  cases hph with
  | opened _ => exact h.content _ (.opened hc)
  | commit q _ hq =>
    refine h.content pc (.commit q pc ?_)
    simp only [State.goto, update_apply] at hq
    split at hq
    · cases hq
    · exact hq

theorem Inv.last (h : Inv a s) (hp : s.Free p) (hl : s.loc p = .inOp ()) (hc : s.committing = false)
    (ho : s.outstanding = 1) : Inv a { s.goto p (.committing .start) with outstanding := 0, committing := true } := by
  refine ⟨h.sound, Books.last h.books hl hc ho rfl, h.claims.goto hp.1 (by rw [hl]; rfl), fun pc hph => ?_⟩
  cases hph with
  | opened h0 => cases h0
  | commit q _ hq =>
    simp only [State.goto, update_apply] at hq
    split at hq
    · cases hq
      exact h.content _ (.opened hc)
    · exact absurd hq (h.books.not_busy hc _ pc)

theorem Inv.left (h : Inv a s) (hl : s.loc p = .inOp ()) (hc : s.committing = false) (ho : s.outstanding ≠ 1) :
    Inv a { s with outstanding := s.outstanding - 1, loc := update (wakeup s.loc) p .idle } := by
  refine ⟨h.sound, Books.left h.books hl hc ho, h.claims.wakeup.moved (fun pc hq => ?_) (by simp), fun pc hph => ?_⟩
  · rw [wakeup_eq_committing, hl] at hq
    cases hq
  · cases hph with
    | opened _ => exact h.content _ (.opened hc)
    | commit q _ hq =>
      simp only [update_apply] at hq
      split at hq
      · cases hq
      · exact absurd (wakeup_eq_committing.mp hq) (h.books.not_busy hc _ pc)

/-! ## Steps of the commit -/

section
variable (h : Inv a s)
include h

theorem Inv.jump (hl : s.loc p = .committing pc) (hs : Sound io) (hcl : pc'.cleared = true → s.lh = [])
    (hclaims : Claims a io s.lh (update s.loc p (.committing pc')) s.unsaved)
    (hcontent : Content a pc' io s.lh s.store s.unsaved) : Inv a ({ s with io := io }.goto p (.committing pc')) := by
  refine ⟨hs, Books.jump h.books hl hcl, hclaims, fun pc'' hph => ?_⟩
  obtain rfl := hph.of_goto h hl rfl rfl
  exact hcontent

theorem Inv.goto (hp : s.io.pc p = .out) (hl : s.loc p = .committing pc)
    (hcl : pc'.cleared = true → s.lh = []) (hheld : pc'.held a s.lh = pc.held a s.lh)
    (hcontent : Content a pc' s.io s.lh s.store s.unsaved) : Inv a (s.goto p (.committing pc')) :=
  h.jump hl h.sound hcl (h.claims.goto hp (by rw [hl]; exact hheld)) hcontent

theorem Inv.copy (hp : s.io.pc p = .out) (hl : s.loc p = .committing pc) {data : Block}
    (hcl : pc'.cleared = true → s.lh = []) (hheld : pc'.held a s.lh = pc.held a s.lh)
    (hcontent : Content a pc' (s.io.setData i data) s.lh s.store s.unsaved) :
    Inv a ({ s with io := s.io.setData i data }.goto p (.committing pc')) := by
  refine h.jump hl (h.sound.setData data) hcl ?_ hcontent
  refine (h.claims.goto hp (by rw [hl]; exact hheld)).congr rfl fun j => ?_
  rw [Io.setData_buf]
  exact ⟨rfl, rfl, rfl, rfl⟩

theorem Inv.write (hp : s.io.pc p = .out) (hl : s.loc p = .committing pc)
    (hst : (s.goto p (.committing pc')).lift (s.io.bwrite p i) = .next s') (hcl : pc'.cleared = true → s.lh = [])
    (hheld : pc'.held a s.lh = pc.held a s.lh)
    (hcontent : Content a pc' { s.io with disk := update s.io.disk (s.io.buf i).blockno (s.io.buf i).data } s.lh s.store
      s.unsaved) :
    Inv a s' := by
  obtain ⟨io, hg, rfl⟩ := lift_eq_next hst
  have hs := h.sound.bwrite hg
  obtain ⟨-, rfl⟩ := bwrite_eq hg
  exact h.jump hl hs hcl ((h.claims.goto hp (by rw [hl]; exact hheld)).congr rfl fun j => ⟨rfl, rfl, rfl, rfl⟩) hcontent

theorem Inv.relse (hp : s.io.pc p = .out) (hl : s.loc p = .committing pc)
    (hst : (s.goto p (.committing pc')).lift (s.io.brelse p i) = .next s') (hi : (i, b) ∈ pc.held a s.lh)
    (hcl : pc'.cleared = true → s.lh = []) (hkeep : ∀ j b, (j, b) ∈ pc'.held a s.lh → (j, b) ∈ pc.held a s.lh ∧ j ≠ i)
    (hall : ∀ j b, (j, b) ∈ pc.held a s.lh → j ≠ i → (j, b) ∈ pc'.held a s.lh)
    (hcontent : Content a pc' s.io s.lh s.store s.unsaved) : Inv a s' := by
  obtain ⟨io, hg, rfl⟩ := lift_eq_next hst
  refine h.jump hl (h.sound.brelse hp hg) hcl ?_ (hcontent.relse hg)
  refine h.claims.brelse hp (h.holds hl hi).1.saved (fun j b hj => ?_) (fun j b hj hne => ?_) hg
  · rw [hl]
    exact hkeep j b hj
  · rw [hl] at hj
    exact hall j b hj hne

theorem Inv.pins_pos {t : ℕ} {lbuf dbuf : BufNo} (hl : s.loc p = .committing (.insUnpin t lbuf dbuf)) :
    0 < s.io.pins dbuf := by
  have hc := h.content _ (.commit p _ hl)
  have hd := (h.holds (i := dbuf) (b := s.lh.getD t 0) hl (by simp [CommitPc.held])).1
  have ht := hc.tail t rfl
  rw [hc.pinned dbuf hd.dev]
  · exact Nat.one_pos
  · rw [hd.blockno, List.getD_eq_getElem _ _ ht, CommitPc.unpinned, List.drop_eq_getElem_cons ht]
    exact List.mem_cons_self

theorem Inv.commit (hp : s.io.pc p = .out) (hl : s.loc p = .committing pc)
    (hst : commitStep a p s pc = .next s') : Inv a s' := by
  have hc := h.content pc (.commit p pc hl)
  have hread : ∀ b, pc.wants a s.lh = some b → s.lift (s.io.bget p ROOTDEV b) = .next s' → Inv a s' := by
    intro b hw hst
    obtain ⟨io, hg, rfl⟩ := lift_eq_next hst
    exact h.read hp (by rw [hl]; exact hw) hg
  -- A log block and a home block are never in the same buffer.
  have hapart : ∀ t i j, t < s.lh.length → (i, a.block t) ∈ pc.held a s.lh → (j, s.lh.getD t 0) ∈ pc.held a s.lh →
      i ≠ j := by
    rintro t i j ht hi hj rfl
    have h1 := (h.holds hl hi).1.blockno
    have h2 := (h.holds hl hj).1.blockno
    exact hc.home_getD ht (h2 ▸ h1 ▸ hc.block_mem ht)
  cases pc with
  | start =>
    cases hst
    split
    · rename_i hn
      refine h.goto hp hl (by simp [CommitPc.cleared]) rfl ?_
      refine hc.goto rfl rfl (fun _ h1 _ => h1) rfl (fun _ h0 => (by cases h0)) (fun _ => ?_) rfl
      rcases hc.room with h0 | h0
      · rw [h0] at hn
        cases hn
      · omega
    · rename_i hn
      have hnil : s.lh = [] := List.length_eq_zero_iff.mp (by omega)
      refine h.goto hp hl (fun _ => hnil) rfl ?_
      rw [hnil] at hc ⊢
      exact hc.empty rfl rfl rfl fun h0 => by cases h0
  | logTo t =>
    simp only [commitStep] at hst
    split at hst
    · rename_i ht
      exact hread _ (by simp [CommitPc.wants, ht]) hst
    · rename_i ht
      cases hst
      refine h.goto hp hl (by simp [CommitPc.cleared]) rfl ?_
      exact hc.goto rfl rfl (fun t' _ h2 => Nat.lt_of_lt_of_le h2 (Nat.le_of_not_lt ht)) rfl
        (fun _ h0 => (by cases h0)) (fun _ => hc.area rfl) rfl
  | logFrom t dst => exact hread _ rfl hst
  | logCopy t dst src =>
    cases hst
    refine h.copy hp hl (by simp [CommitPc.cleared]) rfl ?_
    exact hc.logCopy (h.holds hl (by simp [CommitPc.held])).1 (h.holds hl (by simp [CommitPc.held])).1
  | logWrite t dst src =>
    refine h.write hp hl hst (by simp [CommitPc.cleared]) rfl ?_
    exact hc.logWrote h.sound (h.holds hl (by simp [CommitPc.held])).1
  | logRelseFrom t dst src =>
    have hne := hapart t dst src (hc.tail t rfl) (by simp [CommitPc.held]) (by simp [CommitPc.held])
    refine h.relse hp hl hst (b := s.lh.getD t 0) (by simp [CommitPc.held]) (by simp [CommitPc.cleared]) ?_ ?_ ?_
    · simp [CommitPc.held, hne]
    · simp only [CommitPc.held, List.mem_cons, Prod.mk.injEq]
      grind
    · exact hc.goto rfl rfl (fun _ h1 _ => h1) rfl hc.tail (fun _ => hc.area rfl) rfl
  | logRelseTo t dst =>
    refine h.relse hp hl hst (b := a.block t) (by simp [CommitPc.held]) (by simp [CommitPc.cleared]) ?_ ?_ ?_
    · simp [CommitPc.held]
    · simp +contextual [CommitPc.held]
    · exact hc.goto rfl rfl (fun _ h1 _ => h1) rfl (fun _ h0 => (by cases h0)) (fun _ => hc.area rfl) rfl
  | head erase => exact hread _ rfl hst
  | headFill erase buf =>
    cases hst
    refine h.copy hp hl (fun hcl => h.books.cleared p _ hl hcl) rfl ?_
    exact hc.headFill (h.holds hl (by simp [CommitPc.held])).1 _
  | headWrite erase buf =>
    refine h.write hp hl hst (fun hcl => h.books.cleared p _ hl hcl) rfl ?_
    exact hc.headWrote h.sound (h.holds hl (by simp [CommitPc.held])).1
  | headRelse erase buf =>
    cases erase with
    | true =>
      have hnil := h.books.cleared p _ hl rfl
      refine h.relse hp hl hst (b := a.start) (by simp [CommitPc.held]) (fun _ => hnil) ?_ ?_ ?_
      · simp [CommitPc.held]
      · simp +contextual [CommitPc.held]
      · rw [hnil] at hc ⊢
        exact hc.empty rfl rfl rfl fun h0 => by cases h0
    | false =>
      refine h.relse hp hl hst (b := a.start) (by simp [CommitPc.held]) (by simp [CommitPc.cleared]) ?_ ?_ ?_
      · simp [CommitPc.held]
      · simp +contextual [CommitPc.held]
      · exact hc.goto rfl rfl (fun _ h1 _ => h1) rfl (fun _ h0 => (by cases h0)) (fun _ => hc.area rfl) rfl
  | insLog t =>
    simp only [commitStep] at hst
    split at hst
    · rename_i ht
      exact hread _ (by simp [CommitPc.wants, ht]) hst
    · rename_i ht
      cases hst
      have hnil : s.lh.drop s.lh.length = s.lh.drop t := by
        rw [List.drop_length, List.drop_eq_nil_of_le (Nat.le_of_not_lt ht)]
      refine h.goto hp hl (by simp [CommitPc.cleared]) rfl ?_
      exact hc.goto hnil hnil (fun _ h1 _ => h1) rfl (fun _ h0 => (by cases h0)) (fun _ => hc.area rfl) rfl
  | insDst t lbuf => exact hread _ rfl hst
  | insCopy t lbuf dbuf =>
    cases hst
    refine h.copy hp hl (by simp [CommitPc.cleared]) rfl ?_
    exact hc.insCopy (h.holds hl (by simp [CommitPc.held])).1 (h.holds hl (by simp [CommitPc.held])).1
  | insWrite t lbuf dbuf =>
    refine h.write hp hl hst (by simp [CommitPc.cleared]) rfl ?_
    exact hc.insWrote (h.holds hl (by simp [CommitPc.held])).1
  | insUnpin t lbuf dbuf =>
    cases hst
    have hd := (h.holds (i := dbuf) (b := s.lh.getD t 0) hl (by simp [CommitPc.held])).1
    refine h.jump hl (h.sound.bunpin (h.pins_pos hl)) (by simp [CommitPc.cleared]) ?_ (hc.insUnpinned h.sound hd)
    refine (h.claims.goto hp (by rw [hl]; rfl)).congr rfl fun j => ?_
    rw [Io.bunpin_buf]
    exact ⟨rfl, rfl, rfl, rfl⟩
  | insRelseLog t lbuf dbuf =>
    have hne := hapart t lbuf dbuf (hc.tail t rfl) (by simp [CommitPc.held]) (by simp [CommitPc.held])
    refine h.relse hp hl hst (b := a.block t) (by simp [CommitPc.held]) (by simp [CommitPc.cleared]) ?_ ?_ ?_
    · simp [CommitPc.held, hne.symm]
    · simp only [CommitPc.held, List.mem_cons, Prod.mk.injEq]
      grind
    · exact hc.goto rfl rfl (fun _ h1 _ => h1) rfl hc.tail (fun _ => hc.area rfl) rfl
  | insRelseDst t dbuf =>
    refine h.relse hp hl hst (b := s.lh.getD t 0) (by simp [CommitPc.held]) (by simp [CommitPc.cleared]) ?_ ?_ ?_
    · simp [CommitPc.held]
    · simp +contextual [CommitPc.held]
    · exact hc.goto rfl rfl (fun _ h1 _ => h1) rfl (fun _ h0 => (by cases h0)) (fun _ => hc.area rfl) rfl
  | clear =>
    cases hst
    refine ⟨h.sound, Books.jump h.books hl fun _ => rfl, ?_, fun pc' hph => ?_⟩
    · refine (h.claims.goto (l := .committing (.head true)) hp (by rw [hl]; rfl)).header fun q pc hq => ?_
      rw [update_apply] at hq
      split at hq
      · rename_i hqp
        cases hq
        exact ⟨hqp ▸ hp, rfl, rfl⟩
      · rename_i hqp
        exact absurd (h.books.one q p _ _ hq hl) hqp
    · obtain rfl := hph.of_goto h hl rfl rfl
      exact hc.clear
  | done =>
    cases hst
    have hnil := h.books.cleared p _ hl rfl
    refine ⟨h.sound, Books.finish h.books hl rfl, ?_, fun pc' hph => ?_⟩
    · have hw : wakeup s.loc p = .committing .done := wakeup_eq_committing.mpr hl
      exact h.claims.wakeup.goto hp (by rw [hw]; rfl)
    · have hempty : Content a .start s.io s.lh s.store s.unsaved := by
        rw [hnil] at hc ⊢
        exact hc.empty rfl rfl rfl fun h0 => by cases h0
      cases hph with
      | opened _ => exact hempty
      | commit q _ hq =>
        simp only [update_apply] at hq
        split at hq
        · cases hq
        · rename_i hqp
          exact absurd (h.books.one q p _ _ (wakeup_eq_committing.mp hq) hl) hqp

theorem Inv.step {e : Action} (hok : Disciplined a s e) (hst : StepCases a s e s') : Inv a s' := by
  cases hst with
  | bread p dev b io he hp hg hs =>
    subst he hs
    obtain ⟨rfl, hb⟩ := hok.1
    refine h.read hp.1 ?_ hg
    rcases hp.2 with hl | hl <;> rw [hl] <;> exact hb
  | modify p i data hp hl hs =>
    subst hs
    exact h.modify hp hl data
  | logWrite p i he hp _ hlt hs =>
    subst he hs
    exact h.logWrite hp hok.1.1 hok.1.2 hlt
  | bwrite p i io he hp hg hs =>
    subst he hs
    exact h.bwrite hp hok.2 hg
  | brelse p i io he hp hg hs =>
    subst he hs
    exact h.brelse hp hok.1 hg
  | acquire p dev b i io hp hg hs =>
    subst hs
    exact h.acquire hp hg
  | fill p dev b i hp hs =>
    subst hs
    exact h.fill hp
  | drop p i hp hs =>
    subst hs
    exact h.drop hp
  | moved p l hp hl hs =>
    subst hs
    exact h.moved hp hl
  | entered p hp hc hs =>
    subst hs
    exact h.entered hp hc
  | last p hp hl hc ho hs =>
    subst hs
    exact h.last hp hl hc ho
  | left p hl hc ho hs =>
    subst hs
    exact h.left hl hc ho
  | commit p pc hp hl hst => exact h.commit hp hl hst

end

end Inv

/-! ## Runs -/

/-- A cache nobody uses yet, in agreement with the disk: after `binit`, or after `initlog` has recovered. -/
structure Fresh (io : Io) : Prop where
  sound : Sound io
  out : ∀ p, io.pc p = .out
  lock : ∀ i, (io.buf i).lock = none
  pins : ∀ i, io.pins i = 0
  data : ∀ i, (io.buf i).dev = ROOTDEV → (io.buf i).valid = true → (io.buf i).data = io.disk (io.buf i).blockno

theorem binit_fresh (disk : Disk) : Fresh (binit disk) :=
  ⟨binit_sound disk, fun _ => rfl, fun _ => rfl, fun _ => rfl, fun _ _ h0 => by cases h0⟩

variable {a : Area} {io : Io} {s s' : State} {e : Action} {es : List Action}

theorem init_inv (h : Fresh io) : Inv a (init io) := by
  refine ⟨h.sound, Books.init, ?_, fun pc hph => ?_⟩
  · refine ⟨fun p dev b i hp => ?_, fun i p hl => ?_, fun p i b hm => (by cases hm), fun i hu => by cases hu⟩
    · rw [init, h.out p] at hp
      rcases hp with hp | hp <;> cases hp
    · rw [init, h.lock i] at hl
      cases hl
  · cases hph with
    | opened _ =>
      exact ⟨List.nodup_nil, by simp [init], .inl rfl, fun h0 => (by cases h0), fun _ h0 => (by cases h0), by simp [init],
        fun i _ => h.pins i, by simp [init], fun _ _ _ => rfl, fun i h1 h2 _ _ => h.data i h1 h2,
        fun i h1 h2 _ _ => h.data i h1 h2, by simp [init], fun _ _ _ h0 => by cases h0⟩
    | commit q _ hq => cases hq

theorem run_inv (hio : Fresh io) (h : Run (step a) (Disciplined a) (init io) es s) : Inv a s := by
  refine h.stateInvariant ?_ ?_
  · exact init_inv hio
  · exact fun s e s' hi hok hst => hi.step hok (step_cases hst)

theorem StepCases.onCache (hst : StepCases a s e s') (h : Inv a s) : ∃ p, Bio.Step s.io p s'.io := by
  cases hst with
  | bread p dev b io _ hp hg hs => exact ⟨p, hs ▸ .bget dev b io hp.1 hg⟩
  | modify p i data _ _ hs => exact ⟨p, hs ▸ .setData i data⟩
  | logWrite p i _ _ _ _ hs =>
    subst hs
    refine ⟨p, ?_⟩
    dsimp only
    split
    · exact .none
    · exact .bpin i
  | bwrite p i io _ _ hg hs => exact ⟨p, hs ▸ .bwrite i io hg⟩
  | brelse p i io _ hp hg hs => exact ⟨p, hs ▸ .brelse i io hp.1 hg⟩
  | acquire p dev b i io hp hg hs => exact ⟨p, hs ▸ .acquiresleep dev b i io hp hg⟩
  | fill p dev b i hp hs => exact ⟨p, hs ▸ .fill dev b i hp⟩
  | drop p i hp hs => exact ⟨p, hs ▸ .drop i hp⟩
  | moved p l _ _ hs => exact ⟨p, hs ▸ .none⟩
  | entered p _ _ hs => exact ⟨p, hs ▸ .none⟩
  | last p _ _ _ _ hs => exact ⟨p, hs ▸ .none⟩
  | left p _ _ _ hs => exact ⟨p, hs ▸ .none⟩
  | commit p pc hp hl hst =>
    have hread : ∀ b, s.lift (s.io.bget p ROOTDEV b) = .next s' → Bio.Step s.io p s'.io := by
      intro b hst
      obtain ⟨io, hg, rfl⟩ := lift_eq_next hst
      exact .bget _ _ _ hp hg
    have hwrite : ∀ i l, (s.goto p l).lift (s.io.bwrite p i) = .next s' → Bio.Step s.io p s'.io := by
      intro i l hst
      obtain ⟨io, hg, rfl⟩ := lift_eq_next hst
      exact .bwrite i _ hg
    have hrelse : ∀ i l, (s.goto p l).lift (s.io.brelse p i) = .next s' → Bio.Step s.io p s'.io := by
      intro i l hst
      obtain ⟨io, hg, rfl⟩ := lift_eq_next hst
      exact .brelse i _ hp hg
    refine ⟨p, ?_⟩
    cases pc with
    | start =>
      cases hst
      exact .none
    | logTo t =>
      simp only [commitStep] at hst
      split at hst
      · exact hread _ hst
      · cases hst
        exact .none
    | logFrom t dst => exact hread _ hst
    | logCopy t dst src =>
      cases hst
      exact .setData _ _
    | logWrite t dst src => exact hwrite _ _ hst
    | logRelseFrom t dst src => exact hrelse _ _ hst
    | logRelseTo t dst => exact hrelse _ _ hst
    | head erase => exact hread _ hst
    | headFill erase buf =>
      cases hst
      exact .setData _ _
    | headWrite erase buf => exact hwrite _ _ hst
    | headRelse erase buf => exact hrelse _ _ hst
    | insLog t =>
      simp only [commitStep] at hst
      split at hst
      · exact hread _ hst
      · cases hst
        exact .none
    | insDst t lbuf => exact hread _ hst
    | insCopy t lbuf dbuf =>
      cases hst
      exact .setData _ _
    | insWrite t lbuf dbuf => exact hwrite _ _ hst
    | insUnpin t lbuf dbuf =>
      cases hst
      exact .bunpin dbuf (h.pins_pos hl)
    | insRelseLog t lbuf dbuf => exact hrelse _ _ hst
    | insRelseDst t dbuf => exact hrelse _ _ hst
    | clear =>
      cases hst
      exact .none
    | done =>
      cases hst
      exact .none

/-- Buffer `i` is the one that caches block `b`. -/
def Caches (s : State) (i : BufNo) (b : BlockNo) : Prop :=
  ∀ j, (s.io.buf j).dev = ROOTDEV ∧ (s.io.buf j).blockno = b ↔ j = i

/-- The cache and the log as one store: what a `bread` about to return returns, and who is pinned. -/
structure OneStore (a : Area) (s : State) : Prop where
  returns : ∀ p dev b i s', s.io.pc p = .filling dev b i → step a s (.go p) = .next s' → ¬ a.Mem b →
    (s'.io.buf i).dev = dev ∧ (s'.io.buf i).blockno = b ∧ (s'.io.buf i).data = s.store b
  counted : ∀ i, (s.io.buf i).refcnt.toNat = s.io.users i
  pinned : ∀ pc, Phase s pc → ∀ b ∈ s.lh.drop (pc.installed s.lh.length),
    ∃ i, Caches s i b ∧ (s.io.buf i).valid = true ∧ s.io.pins i = 1
  loose : ∀ i, ((s.io.buf i).dev = ROOTDEV → (s.io.buf i).blockno ∉ s.lh) → s.io.pins i = 0
  kept : ∀ e s', step a s e = .next s' → ∀ i, 0 < s.io.pins i →
    (s'.io.buf i).dev = (s.io.buf i).dev ∧ (s'.io.buf i).blockno = (s.io.buf i).blockno
  released : s.committing = false → s.outstanding = 0 → ∀ i, s.io.pins i = 0

theorem Inv.returns (h : Inv a s) {p : Slot} {i : BufNo} (hp : s.io.pc p = .filling dev b i)
    (hst : BlockStore.step a s (.go p) = .next s') (hb : ¬ a.Mem b) :
    (s'.io.buf i).dev = dev ∧ (s'.io.buf i).blockno = b ∧ (s'.io.buf i).data = s.store b := by
  have hkey := h.sound.filling p dev b i hp
  have hdev := (h.claims.asks p dev b i (.inr hp)).1
  have hu := h.claims.unsaved_filling h.sound hp
  simp only [BlockStore.step, go, hp] at hst
  cases hst
  have hinv := h.fill hp
  obtain ⟨pc, hph⟩ := hinv.exists_phase
  have hkeep := (Step.fill dev b i hp).kept h.sound h.few (i := i) (by
    rw [Io.users, hkey.2.2]
    simp only [Option.isSome_some, Bool.toNat_true]
    omega)
  rw [hkey.1, hkey.2.1] at hkeep
  have hv : ((s.io.fill p i).buf i).valid = true := by
    unfold Io.fill
    split <;> simp_all
  refine ⟨hkeep.1, hkeep.2, ?_⟩
  have := (hinv.content pc hph).data i (hkeep.1.trans hdev) hv (by simpa only [State.goto, hkeep.2] using hb) hu
  simpa only [State.goto, hkeep.2] using this

/-- **One block store.** For every interleaving of disciplined processes, over any number of blocks. -/
theorem run_one_store (a : Area) (io : Io) (hio : Fresh io) (es : List Action) (s : State)
    (h : Run (step a) (Disciplined a) (init io) es s) : OneStore a s := by
  have hi := run_inv hio h
  obtain ⟨pc, hph⟩ := hi.exists_phase
  have hc := hi.content pc hph
  refine ⟨fun p dev b i s' hp hst hb => hi.returns hp hst hb, fun i => ?_, fun pc hph b hb => ?_, fun i hno => ?_,
    fun e s' hst i hpos => ?_, fun hcm ho i => ?_⟩
  · rw [hi.sound.count i, BitVec.toNat_ofNat, Nat.mod_eq_of_lt (hi.few i)]
  · have hc := hi.content pc hph
    have hle : pc.unpinned s.lh.length ≤ pc.installed s.lh.length := CommitPc.unpinned_le_installed
    have hb' := List.drop_subset_drop_left s.lh hle hb
    obtain ⟨i, hdev, hblock, hv⟩ := hc.cached b hb'
    refine ⟨i, fun j => ⟨fun hj => ?_, ?_⟩, hv, hc.pinned i hdev (hblock ▸ hb')⟩
    · exact hi.sound.unique hj.1 hdev (hj.2.trans hblock.symm)
    · rintro rfl
      exact ⟨hdev, hblock⟩
  · exact hc.loose i fun hdev hm => hno hdev (List.mem_of_mem_drop hm)
  · obtain ⟨p, hstep⟩ := (step_cases hst).onCache hi
    exact hstep.kept hi.sound hi.few (by rw [Io.users]; omega)
  · have hnil : s.lh = [] := by
      refine hi.books.empty hcm fun q op hq => ?_
      have := hi.books.one_le hq
      omega
    exact hc.loose i fun _ hm => by simp [hnil] at hm

def firstBuf : BufNo := ⟨0, NBUF_pos⟩

/-- `init` logs a block and is about to install it when its child reads the block again. -/
def sampleRead : List Action :=
  List.flatten [[.beginOp initproc, .go initproc, .bread initproc ROOTDEV 100, .go initproc, .go initproc,
    .modify initproc firstBuf fun _ => 1, .logWrite initproc firstBuf, .brelse initproc firstBuf, .go initproc,
    .endOp initproc], .replicate 13 (.go initproc), [.bread firstChild ROOTDEV 100, .go firstChild]]

theorem sampleRead_runs : (exec (guarded (step sampleArea) (Disciplined sampleArea)) sampleRead
    (init (binit fun _ _ => 0))).check (fun s => s.committing && s.lh == [100] &&
      s.io.pc firstChild == .filling ROOTDEV 100 firstBuf && s.store 100 0 == 1) = true := by
  decide +kernel

theorem sampleRead_returns :
    ∃ s, Run (step sampleArea) (Disciplined sampleArea) (init (binit fun _ _ => 0)) sampleRead s ∧
      s.committing = true ∧ s.lh = [100] ∧ s.io.pc firstChild = .filling ROOTDEV 100 firstBuf ∧ s.store 100 0 = 1 ∧
      OneStore sampleArea s := by
  obtain ⟨s, hrun, hcheck⟩ := exists_run_of_check _ _ sampleRead_runs
  simp only [Bool.and_eq_true, beq_iff_eq] at hcheck
  obtain ⟨⟨⟨h1, h2⟩, h3⟩, h4⟩ := hcheck
  exact ⟨s, hrun, h1, h2, h3, h4, run_one_store sampleArea _ (binit_fresh _) sampleRead s hrun⟩

/-- The child writes the block with `bwrite` after the commit has copied it to the log and before it is
installed, and reads it again afterwards. -/
def lostWrite : List Action :=
  List.flatten [sampleRead, [.go firstChild, .modify firstChild firstBuf fun _ => 2, .bwrite firstChild firstBuf,
    .brelse firstChild firstBuf, .go firstChild], .replicate 25 (.go initproc),
    [.bread firstChild ROOTDEV 100, .go firstChild]]

theorem lostWrite_runs : (exec (guarded (step sampleArea) (Client sampleArea)) lostWrite
    (init (binit fun _ _ => 0))).check (fun s => s.io.pc firstChild == .filling ROOTDEV 100 firstBuf &&
      s.store 100 0 == 2 && (step sampleArea s (.go firstChild)).check
        (fun s' => (s'.io.buf firstBuf).data 0 == 1)) = true := by
  decide +kernel

/-- The contents recorded last are those of the `bwrite`; `bread` returns those of the transaction. -/
theorem lostWrite_stale :
    ∃ s s', Run (step sampleArea) (Client sampleArea) (init (binit fun _ _ => 0)) lostWrite s ∧
      s.io.pc firstChild = .filling ROOTDEV 100 firstBuf ∧ step sampleArea s (.go firstChild) = .next s' ∧
      (s'.io.buf firstBuf).data 0 = 1 ∧ s.store 100 0 = 2 := by
  obtain ⟨s, hrun, hcheck⟩ := exists_run_of_check _ _ lostWrite_runs
  simp only [Bool.and_eq_true, beq_iff_eq] at hcheck
  obtain ⟨⟨h1, h2⟩, h3⟩ := hcheck
  cases hst : step sampleArea s (.go firstChild) with
  | next s' =>
    rw [hst] at h3
    exact ⟨s, s', hrun, h1, hst, by simpa [Outcome.check] using h3, h2⟩
  | _ => simp [hst, Outcome.check] at h3

end Xv6Boot.Kernel.BlockStore
