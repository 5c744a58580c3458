import Xv6Boot.Kernel.GroupCommit

/-! # Log space: what `begin_op` reserves and what `log_write` admits

`mkfs` writes `nlog = LOGSIZE`, header block included, so the log holds one block less than three
reservations of `MAXOPBLOCKS`. An operation has a right to `MAXOPBLOCKS - 1` blocks.
-/

namespace Xv6Boot.Kernel.LogSpace
open Function Transition Log GroupCommit

/-- The log area of the superblock `mkfs` writes: `sb.logstart`, and `sb.nlog = LOGSIZE`. -/
def mkfsArea (logstart : BlockNo) : Area := ⟨logstart, LOGSIZE, by decide⟩

def opBlocks (ws : List (ℕ × BlockNo × Block)) (id : ℕ) : Finset BlockNo :=
  ((ws.filter fun w => w.1 = id).map fun w => w.2.1).toFinset

section
variable {P : Type} [DecidableEq P]

/-- Operations that log at most `K` distinct blocks each. -/
def Client (K : ℕ) (s : State P) : Action P → Prop
  | .logWrite p b _ => ∀ id, s.loc p = .inOp id → (insert b (opBlocks s.writes id)).card ≤ K
  | _ => True

end

theorem opBlocks_append (ws : List (ℕ × BlockNo × Block)) (id id' : ℕ) (b : BlockNo) (data : Block) :
    opBlocks (ws ++ [(id, b, data)]) id' = if id = id' then insert b (opBlocks ws id') else opBlocks ws id' := by
  unfold opBlocks
  rw [List.filter_append, List.map_append, List.toFinset_append]
  by_cases h : id = id'
  · subst h
    simp
  · simp [h]

theorem latest_of_mem {ws : List (ℕ × BlockNo × Block)} {w : ℕ × BlockNo × Block} (h : w ∈ ws) :
    latest ws w.2.1 ≠ none := by
  unfold latest
  intro h0
  rw [Option.map_eq_none_iff, List.find?_eq_none] at h0
  exact h0 w (List.mem_reverse.mpr h) (by simp)

variable {id : ℕ} {b : BlockNo}

theorem exists_of_mem_opBlocks {ws : List (ℕ × BlockNo × Block)} (h : b ∈ opBlocks ws id) :
    ∃ w ∈ ws, w.1 = id ∧ w.2.1 = b := by
  obtain ⟨w, hw, rfl⟩ := List.mem_map.mp (List.mem_toFinset.mp h)
  obtain ⟨hm, hid⟩ := List.mem_filter.mp hw
  exact ⟨w, hm, by simpa using hid, rfl⟩

/-! ## Nine blocks each are enough -/

section Enough
variable {P : Type} {a : Area} {s s' : State P} {K : ℕ}

def spare (ws : List (ℕ × BlockNo × Block)) (id : ℕ) : ℕ := MAXOPBLOCKS - 1 - (opBlocks ws id).card

/-- The header and what the running operations may still add leave one block of the log free. -/
structure Room (s : State P) : Prop where
  past : ∀ w ∈ s.writes, w.1 < s.nops
  few : ∀ id ∈ s.running, (opBlocks s.writes id).card ≤ MAXOPBLOCKS - 1
  fits : s.lh.length + ∑ id ∈ s.running, spare s.writes id ≤ LOGSIZE - 2

theorem mem_lh_of_opBlocks (h : Content a s) (hcl : ¬ Cleared s) (hb : b ∈ opBlocks s.writes id) : b ∈ s.lh := by
  obtain ⟨w, hw, -, rfl⟩ := exists_of_mem_opBlocks hb
  by_contra hn
  have := h.logged hcl w.2.1
  rw [if_neg hn] at this
  exact latest_of_mem hw this

theorem Room.entered (h : Room s) (hb : Books s) (hc : s.committing = false)
    (hroom : s.lh.length + (s.outstanding + 1) * MAXOPBLOCKS ≤ (LOGSIZE : ℤ)) (loc : P → Loc ℕ CommitPc) :
    Room { s with outstanding := s.outstanding + 1, loc := loc, nops := s.nops + 1,
                  running := insert s.nops s.running } := by
  have hnew : s.nops ∉ s.running := fun hm => Nat.lt_irrefl _ (hb.fresh _ hm)
  have hnone : opBlocks s.writes s.nops = ∅ := by
    refine Finset.eq_empty_of_forall_notMem fun b hm => ?_
    obtain ⟨w, hw, hid, -⟩ := exists_of_mem_opBlocks hm
    exact absurd (h.past w hw) (by omega)
  have hspare : spare s.writes s.nops = MAXOPBLOCKS - 1 := by
    rw [spare, hnone, Finset.card_empty, Nat.sub_zero]
  have hsum : ∑ id ∈ s.running, spare s.writes id ≤ s.running.card * (MAXOPBLOCKS - 1) :=
    Finset.sum_le_card_nsmul _ _ _ fun id _ => Nat.sub_le _ _
  have hcount := hb.count
  constructor
  · exact fun w hw => Nat.lt_succ_of_lt (h.past w hw)
  · intro id hid
    rcases Finset.mem_insert.mp hid with rfl | hid
    · simp [hnone]
    · exact h.few id hid
  · dsimp only
    rw [Finset.sum_insert hnew, hspare]
    by_cases h0 : s.running = ∅
    · have hlh := hb.empty hc (hb.none_iff.mp h0)
      rw [hlh, h0, Finset.sum_empty]
      decide
    · -- With another operation running, two reservations leave two blocks beside their nine.
      have hpos := Finset.card_pos.mpr (Finset.nonempty_iff_ne_empty.mpr h0)
      unfold MAXOPBLOCKS LOGSIZE at *
      unfold MAXOPBLOCKS at *
      rw [hcount] at hroom
      omega

theorem Room.wrote (h : Room s) (hsub : ∀ id b, b ∈ opBlocks s.writes id → b ∈ s.lh) (hid : id ∈ s.running)
    (hlt : id < s.nops) (b : BlockNo) (data : Block) (cache : BlockNo → Block)
    (hK : (insert b (opBlocks s.writes id)).card ≤ MAXOPBLOCKS - 1) :
    Room { s with lh := absorb s.lh b, cache := cache, writes := s.writes ++ [(id, b, data)] } := by
  have hself : opBlocks (s.writes ++ [(id, b, data)]) id = insert b (opBlocks s.writes id) := by
    rw [opBlocks_append, if_pos rfl]
  have hother : ∀ id' ≠ id, opBlocks (s.writes ++ [(id, b, data)]) id' = opBlocks s.writes id' := by
    intro id' hne
    rw [opBlocks_append, if_neg hne.symm]
  have hfits := h.fits
  constructor
  · intro w hw
    rcases List.mem_append.mp hw with hw | hw
    · exact h.past w hw
    · rw [List.mem_singleton.mp hw]
      exact hlt
  · intro id' hid'
    by_cases he : id' = id
    · subst he
      rw [hself]
      exact hK
    · rw [hother id' he]
      exact h.few id' hid'
  · dsimp only
    rw [← Finset.add_sum_erase _ _ hid] at hfits ⊢
    have hrest : ∑ x ∈ s.running.erase id, spare (s.writes ++ [(id, b, data)]) x =
        ∑ x ∈ s.running.erase id, spare s.writes x := by
      refine Finset.sum_congr rfl fun x hx => ?_
      rw [spare, hother x (Finset.ne_of_mem_erase hx), spare]
    rw [hrest, length_absorb]
    unfold spare at hfits ⊢
    rw [hself]
    by_cases hm : b ∈ s.lh
    · rw [if_pos hm]
      have := Finset.card_le_card (Finset.subset_insert b (opBlocks s.writes id))
      omega
    · have hnot : b ∉ opBlocks s.writes id := fun hb => hm (hsub id b hb)
      rw [if_neg hm]
      rw [Finset.card_insert_of_notMem hnot] at hK ⊢
      omega

theorem Room.init (disk : Disk) : Room (GroupCommit.init disk : State P) := by
  constructor <;> simp [GroupCommit.init]

theorem Room.ended (h : Room s) (id : ℕ) (outstanding : ℤ) (committing : Bool) (loc : P → Loc ℕ CommitPc)
    (ended : Finset ℕ) (base : Disk) (txn : Txn) :
    Room { s with outstanding := outstanding, committing := committing, loc := loc,
                  running := s.running.erase id, ended := ended, base := base, txn := txn } := by
  refine ⟨h.past, fun x hx => h.few x (Finset.mem_of_mem_erase hx), ?_⟩
  have := Finset.sum_le_sum_of_subset (f := spare s.writes) (Finset.erase_subset id s.running)
  have := h.fits
  dsimp only
  omega

variable [DecidableEq P]

theorem Room.step {e : Action P} (hb : Books s) (hct : Content a s) (h : Room s) (hK : K < MAXOPBLOCKS)
    (hok : Client K s e) (hst : StepCases a s e s') : Room s' := by
  cases hst with
  | moved p hm =>
    obtain ⟨⟨l, rfl, -⟩, -, -⟩ := hm
    exact ⟨h.past, h.few, h.fits⟩
  | entered p hp hc hroom he =>
    subst he
    exact h.entered hb hc hroom _
  | wrote p id b data he hp hle hlt he' =>
    subst he he'
    have hid := hb.opened hp
    have hcl := hb.not_cleared (hb.not_committing hp)
    exact h.wrote (fun id b => mem_lh_of_opBlocks hct hcl) hid (hb.fresh id hid) b data _
      ((hok id hp).trans (by omega))
  | last p id hp hc ho he =>
    subst he
    exact h.ended id _ _ _ _ _ _
  | left p id hp hc ho he =>
    subst he
    exact h.ended id _ _ _ _ _ _
  | commit p pc hp hst =>
    obtain ⟨⟨pc', lh, disk, rfl, hlh, -⟩⟩ := commitStep_moved hst
    refine ⟨h.past, h.few, ?_⟩
    have hfits := h.fits
    rcases hlh with ⟨rfl, -⟩ | ⟨rfl, -⟩
    · exact hfits
    · dsimp only
      rw [List.length_nil]
      omega
  | finished p hp he =>
    subst he
    have hq := hb.none_iff.mpr (hb.quiet (hb.busy.mpr ⟨p, _, hp⟩))
    have hfits := h.fits
    refine ⟨fun w hw => absurd hw List.not_mem_nil, ?_, ?_⟩
    · intro id hid
      rw [finish, hq] at hid
      exact absurd hid (Finset.notMem_empty _)
    · simp only [finish, hq, Finset.sum_empty] at hfits ⊢
      exact hfits

theorem run_room {disk : Disk} {es : List (Action P)} (hK : K < MAXOPBLOCKS)
    (h : Run (step a) (Client K) (GroupCommit.init disk) es s) : Room s := by
  suffices h' : Books s ∧ Content a s ∧ Room s from h'.2.2
  refine h.stateInvariant ?_ ?_
  · exact ⟨Books.init disk, Content.init disk, Room.init disk⟩
  · rintro s e s' ⟨hb, hc, hr⟩ hok hst
    exact ⟨hb.step (step_cases hst), hc.step hb (step_cases hst), hr.step hb hc hK hok (step_cases hst)⟩

theorem Room.no_panic (h : Room s) (logstart : BlockNo) (p : P) (b : BlockNo) (data : Block) :
    GroupCommit.step (mkfsArea logstart) s (.logWrite p b data) ≠ .panic "too big a transaction" := by
  have hfits := h.fits
  cases hl : s.loc p with
  | inOp id =>
    have hlen : s.lh.length ≤ 28 := le_trans (Nat.le_add_right _ _) hfits
    have hfull : ¬ (s.lh.length ≥ LOGSIZE ∨ (s.lh.length : ℤ) ≥ ((mkfsArea logstart).size : ℤ) - 1) := by
      have hL : LOGSIZE = 30 := rfl
      have hs : (mkfsArea logstart).size = 30 := rfl
      omega
    simp only [GroupCommit.step, hl, logWrite, Gate.logWrite, if_neg hfull]
    split <;> simp [Outcome.map]
  | _ => simp [GroupCommit.step, hl]

end Enough

/-! ## Ten are not -/

variable {P : Type} [DecidableEq P] {a : Area} {s s₀ : State P} {K : ℕ} {es : List (Action P)}

theorem absorb_of_notMem {lh : List BlockNo} (h : b ∉ lh) : absorb lh b = lh ++ [b] := if_neg h

theorem run_logWrites {p : P} (data : Block) (bs : List BlockNo) (h : Run (step a) (Client K) s₀ es s)
    (hp : s.loc p = .inOp id) (ho : 1 ≤ s.outstanding) (hn : (s.lh ++ bs).Nodup) (hle : (s.lh ++ bs).length ≤ LOGSIZE)
    (hlt : (s.lh ++ bs).length < a.size) (hK : (opBlocks s.writes id ∪ bs.toFinset).card ≤ K) :
    ∃ es' s', Run (step a) (Client K) s₀ es' s' ∧ s'.loc = s.loc ∧ s'.outstanding = s.outstanding ∧
      s'.nops = s.nops ∧ s'.committing = s.committing ∧ s'.lh = s.lh ++ bs ∧
      s'.writes = s.writes ++ bs.map fun b => (id, b, data) := by
  induction bs generalizing s es with
  | nil => exact ⟨es, s, h, rfl, rfl, rfl, rfl, by simp, by simp⟩
  | cons b bs ih =>
    have hlen : (s.lh ++ b :: bs).length = s.lh.length + (bs.length + 1) := by simp
    have hnew : b ∉ s.lh := fun hm => (List.nodup_append.mp hn).2.2 b hm b List.mem_cons_self rfl
    have hstep : step a s (.logWrite p b data) = .next
        { s with lh := s.lh ++ [b], cache := update s.cache b data,
                 writes := s.writes ++ [(id, b, data)] } := by
      simp only [step, hp, logWrite, Gate.logWrite]
      rw [if_neg (by omega), if_neg (by omega), absorb_of_notMem hnew]
      rfl
    have hok : Client K s (.logWrite p b data) := by
      intro id' hid'
      rw [hp, Loc.inOp.injEq] at hid'
      subst hid'
      refine le_trans (Finset.card_le_card ?_) hK
      intro x hx
      rcases Finset.mem_insert.mp hx with rfl | hx
      · simp
      · exact Finset.mem_union_left _ hx
    obtain ⟨es', s', hrun, hloc, hout, hops, hcom, hlh, hws⟩ := ih (h.snoc hok hstep) hp ho (by simpa using hn)
      (by simpa using hle)
      (by simpa using hlt) (by
        refine le_trans (Finset.card_le_card ?_) hK
        dsimp only
        rw [opBlocks_append, if_pos rfl]
        intro x hx
        simp only [Finset.mem_union, Finset.mem_insert, List.toFinset_cons] at hx ⊢
        tauto)
    exact ⟨es', s', hrun, hloc, hout, hops, hcom, by simpa using hlh, by simpa using hws⟩

theorem run_begin (p : P) (h : Run (step a) (Client K) s₀ es s) (hp : s.loc p = .idle) (hc : s.committing = false)
    (hroom : s.lh.length + (s.outstanding + 1) * MAXOPBLOCKS ≤ (LOGSIZE : ℤ)) :
    ∃ es' s', Run (step a) (Client K) s₀ es' s' ∧ s'.loc = update s.loc p (.inOp s.nops) ∧
      s'.outstanding = s.outstanding + 1 ∧ s'.nops = s.nops + 1 ∧ s'.committing = false ∧ s'.lh = s.lh ∧
      s'.writes = s.writes := by
  have h1 : step a s (.beginOp p) = .next { s with loc := update s.loc p .entering } := by
    simp only [step, hp]
  have h2 := h.snoc (show Client K s (.beginOp p) from trivial) h1
  have h3 : step a { s with loc := update s.loc p .entering } (.enter p) =
      .next (enter p { s with loc := update s.loc p .entering }) := by
    simp only [step, update_self]
  refine ⟨_, _, h2.snoc (show Client K _ (.enter p) from trivial) h3, ?_⟩
  have hfull : ¬ s.lh.length + (s.outstanding + 1) * MAXOPBLOCKS > (LOGSIZE : ℤ) := by omega
  simp [enter, Gate.enter, Gate.goto, hc, hfull]

theorem run_end (p : P) (h : Run (step a) (Client K) s₀ es s) (hp : s.loc p = .inOp id) (hc : s.committing = false)
    (ho : s.outstanding ≠ 1) :
    ∃ es' s', Run (step a) (Client K) s₀ es' s' ∧ s'.loc = update (wakeup s.loc) p .idle ∧
      s'.outstanding = s.outstanding - 1 ∧ s'.nops = s.nops ∧ s'.committing = false ∧ s'.lh = s.lh ∧
      s'.writes = s.writes := by
  have h1 : step a s (.endOp p) = .next
      { s with outstanding := s.outstanding - 1, loc := update (wakeup s.loc) p .idle,
               running := s.running.erase id, ended := insert id s.ended } := by
    simp only [step, hp, endOp, Gate.endOp, hc, Bool.false_eq_true, if_false]
    rw [if_neg (by omega)]
    simp [Outcome.map]
  exact ⟨_, _, h.snoc (show Client K s (.endOp p) from trivial) h1, rfl, rfl, rfl, hc, rfl, rfl⟩

def blocksFrom (i n : ℕ) : List BlockNo := (List.range' i n).map (BitVec.ofNat 32)

theorem opBlocks_map (ws : List (ℕ × BlockNo × Block)) (bs : List BlockNo) (id id' : ℕ) (data : Block) :
    opBlocks (ws ++ bs.map fun b => (id, b, data)) id' =
      if id = id' then opBlocks ws id' ∪ bs.toFinset else opBlocks ws id' := by
  induction bs generalizing ws with
  | nil => simp
  | cons b bs ih =>
    have happ : ws ++ (b :: bs).map (fun b => (id, b, data)) =
        ws ++ [(id, b, data)] ++ bs.map fun b => (id, b, data) := by simp
    rw [happ, ih, opBlocks_append]
    split
    · rw [List.toFinset_cons, Finset.insert_union, Finset.union_insert]
    · rfl

/-- One process runs two operations of ten blocks each beside an operation of another process, which then
logs nine. -/
theorem run_full {p q : P} (hpq : p ≠ q) (disk : Disk) (data : Block) (hK : MAXOPBLOCKS ≤ K) (ha : a.size = LOGSIZE) :
    ∃ es s, Run (step a) (Client K) (GroupCommit.init disk) es s ∧ s.loc q = .inOp 1 ∧ s.lh.length = 29 ∧
      opBlocks s.writes 1 = (blocksFrom 20 9).toFinset := by
  have hM : MAXOPBLOCKS = 10 := rfl
  have hL : LOGSIZE = 30 := rfl
  have hcard : ∀ l : List BlockNo, l.length ≤ 10 → (∅ ∪ l.toFinset).card ≤ K := by
    intro l hl
    rw [Finset.empty_union]
    exact (List.toFinset_card_le l).trans (by omega)
  have h0 : Run (step a) (Client K) (GroupCommit.init disk) [] (GroupCommit.init disk : State P) := .nil
  obtain ⟨_, s1, h1, hl1, ho1, hi1, hc1, hh1, hw1⟩ := run_begin p h0 rfl rfl (by simp [GroupCommit.init, hM, hL])
  have hq1 : s1.loc q = .idle := by rw [hl1, update_of_ne hpq.symm]; rfl
  have ho1' : s1.outstanding = 1 := ho1
  have hh1' : s1.lh = [] := hh1
  obtain ⟨_, s2, h2, hl2, ho2, hi2, hc2, hh2, hw2⟩ := run_begin q h1 hq1 hc1 (by rw [hh1', ho1', hM, hL]; decide)
  have hp2 : s2.loc p = .inOp 0 := by rw [hl2, update_of_ne hpq, hl1, update_self]; rfl
  have hq2 : s2.loc q = .inOp 1 := by rw [hl2, update_self, hi1]; rfl
  have hh2' : s2.lh = [] := hh2.trans hh1
  have hw2' : s2.writes = [] := hw2.trans hw1
  obtain ⟨_, s3, h3, hl3, ho3, hi3, hc3, hh3, hw3⟩ := run_logWrites data (blocksFrom 0 10) h2 hp2 (by omega)
    (by rw [hh2']; decide) (by rw [hh2']; decide) (by rw [hh2', ha]; decide)
    (by rw [hw2']; exact hcard _ (by decide))
  rw [hh2', List.nil_append] at hh3
  rw [hw2', List.nil_append] at hw3
  -- The first operation of `p` is over, and there is room for another one.
  obtain ⟨_, s4, h4, hl4, ho4, hi4, hc4, hh4, hw4⟩ := run_end p h3 (hl3 ▸ hp2) (hc3.trans hc2) (by omega)
  have hq4 : s4.loc q = .inOp 1 := by
    rw [hl4, update_of_ne hpq.symm, wakeup_eq_inOp, hl3]
    exact hq2
  have hh4' := hh4.trans hh3
  obtain ⟨_, s5, h5, hl5, ho5, hi5, hc5, hh5, hw5⟩ := run_begin p h4 (by rw [hl4, update_self]) hc4
    (by rw [hh4', ho4, ho3, ho2, ho1', hM, hL]; decide)
  have hn4 : s4.nops = 2 := by rw [hi4, hi3, hi2, hi1]; rfl
  have hp5 : s5.loc p = .inOp 2 := by rw [hl5, update_self, hn4]
  have hq5 : s5.loc q = .inOp 1 := by rw [hl5, update_of_ne hpq.symm, hq4]
  have hh5' := hh5.trans hh4'
  have hw5' := hw5.trans (hw4.trans hw3)
  have hops : ∀ id ≠ 0, opBlocks s5.writes id = ∅ := by
    intro id hid
    have := opBlocks_map [] (blocksFrom 0 10) 0 id data
    rw [if_neg hid.symm, List.nil_append] at this
    rw [hw5', this]
    rfl
  obtain ⟨_, s6, h6, hl6, ho6, hi6, hc6, hh6, hw6⟩ := run_logWrites data (blocksFrom 10 10) h5 hp5 (by omega)
    (by rw [hh5']; decide) (by rw [hh5']; decide) (by rw [hh5', ha]; decide)
    (by rw [hops 2 (by decide)]; exact hcard _ (by decide))
  rw [hh5'] at hh6
  have hops6 : opBlocks s6.writes 1 = ∅ := by
    rw [hw6, opBlocks_map, if_neg (by decide)]
    exact hops 1 (by decide)
  obtain ⟨_, s7, h7, hl7, -, -, -, hh7, hw7⟩ := run_logWrites data (blocksFrom 20 9) h6 (hl6 ▸ hq5) (by omega)
    (by rw [hh6]; decide) (by rw [hh6]; decide) (by rw [hh6, ha]; decide)
    (by rw [hops6]; exact hcard _ (by decide))
  refine ⟨_, s7, h7, by rw [hl7, hl6, hq5], by rw [hh7, hh6]; decide, ?_⟩
  rw [hw7, opBlocks_map, if_pos rfl, hops6, Finset.empty_union]

theorem exists_full [Nontrivial P] (logstart : BlockNo) (disk : Disk) (hK : MAXOPBLOCKS ≤ K) :
    ∃ es, ∃ s : State P, ∃ p b data, Run (step (mkfsArea logstart)) (Client K) (GroupCommit.init disk) es s ∧
      Client K s (.logWrite p b data) ∧
      step (mkfsArea logstart) s (.logWrite p b data) = .panic "too big a transaction" := by
  obtain ⟨p, q, hpq⟩ := exists_pair_ne P
  obtain ⟨es, s, hrun, hq, hlen, hops⟩ :=
    run_full (a := mkfsArea logstart) (K := K) hpq disk (fun _ => 0) hK rfl
  refine ⟨es, s, q, 29, fun _ => 0, hrun, fun id hid => ?_, ?_⟩
  · rw [hq, Loc.inOp.injEq] at hid
    rw [← hid, hops]
    exact le_trans (by decide) hK
  · have hfull : (s.lh.length : ℤ) ≥ ((mkfsArea logstart).size : ℤ) - 1 := by
      rw [hlen]
      exact le_refl (29 : ℤ)
    simp only [step, hq, logWrite, Gate.logWrite]
    rw [if_pos (.inr hfull)]
    rfl

/-- **Log space.** With the log `mkfs` makes, `log_write` never finds it full if and only if operations log
fewer than `MAXOPBLOCKS` distinct blocks each. -/
theorem log_space_iff [Nontrivial P] (logstart : BlockNo) (disk : Disk) (K : ℕ) :
    (∀ es (s : State P), Run (step (mkfsArea logstart)) (Client K) (GroupCommit.init disk) es s →
      ∀ p b data, Client K s (.logWrite p b data) →
        step (mkfsArea logstart) s (.logWrite p b data) ≠ .panic "too big a transaction") ↔
      K < MAXOPBLOCKS := by
  constructor
  · intro h
    by_contra hK
    obtain ⟨es, s, p, b, data, hrun, hok, hpanic⟩ := exists_full (P := P) logstart disk (not_lt.mp hK)
    exact h es s hrun p b data hok hpanic
  · intro hK es s hrun p b data _
    exact (run_room hK hrun).no_panic logstart p b data

theorem log_space_of_nine : 9 < MAXOPBLOCKS ∧
    ∀ es (s : State Bool), Run (step (mkfsArea 2)) (Client 9) (GroupCommit.init fun _ _ => 0) es s →
      ∀ p b data, Client 9 s (.logWrite p b data) →
        step (mkfsArea 2) s (.logWrite p b data) ≠ .panic "too big a transaction" :=
  ⟨by decide, (log_space_iff 2 (fun _ _ => 0) 9).mpr (by decide)⟩

theorem two_processes_fill_the_log :
    ∃ es, ∃ s : State Bool, ∃ p b data,
      Run (step (mkfsArea 2)) (Client MAXOPBLOCKS) (GroupCommit.init fun _ _ => 0) es s ∧
      Client MAXOPBLOCKS s (.logWrite p b data) ∧
      step (mkfsArea 2) s (.logWrite p b data) = .panic "too big a transaction" :=
  exists_full 2 (fun _ _ => 0) le_rfl

end Xv6Boot.Kernel.LogSpace
