import Xv6Boot.Kernel.GroupCommit

/-! # Crashes of the running machine

A crash may come in any state of any interleaving. During a commit the disk is as some of the writes of the sequential
`commit` leave it, so what is proved of its crashes holds of the machine.
-/

namespace Xv6Boot.Kernel.GroupCommit
open Function Transition AtomicWrites Log

/-! ## The writes of a commit -/

section Writes
variable {a : Area} {t : Txn} {i : ℕ}

theorem length_commit_le : (Log.commit a t).length ≤ t.block.length + 1 + t.block.length + 1 := by
  rw [Log.commit]
  split
  · simp [writeLog, installTrans]
    omega
  · exact Nat.zero_le _

theorem commit_writeLog (hi : i < t.block.length) :
    (Log.commit a t)[i]? = some fun _ => (a.block i, t.data (t.block.getD i 0)) := by
  rw [Log.commit, if_pos (by omega), List.getElem?_append_left (by simpa [writeLog])]
  simp [writeLog, hi]

theorem commit_writeHead (h0 : 0 < t.block.length) :
    (Log.commit a t)[t.block.length]? = some (writeHead a t.block) := by
  simp [Log.commit, h0, writeLog]

theorem commit_install (hi : i < t.block.length) :
    (Log.commit a t)[t.block.length + 1 + i]? = some fun d => (t.block.getD i 0, d (a.block i)) := by
  rw [Log.commit, if_pos (by omega), List.getElem?_append_right (by simp [writeLog]; omega)]
  simp [writeLog, installTrans, hi, Nat.add_assoc, Nat.add_comm 1, List.getElem?_append_left]

theorem commit_eraseHead (h0 : 0 < t.block.length) :
    (Log.commit a t)[t.block.length + 1 + t.block.length]? = some (writeHead a []) := by
  rw [Log.commit, if_pos h0, List.getElem?_append_right (by simp [writeLog])]
  simp [writeLog, installTrans, Nat.add_assoc, Nat.add_comm 1]

end Writes

/-- How many writes of the commit of `n` blocks are done; number `n` is that of the header. -/
def CommitPc.written (n : ℕ) : CommitPc → ℕ
  | .start => 0
  | .writeLog tail => min tail n
  | .writeHead => n
  | .install tail => n + 1 + min tail n
  | .clear | .eraseHead => n + 1 + n
  | .done => n + 1 + n + 1

variable {P : Type} [DecidableEq P] {a : Area} {s s' : State P} {e : Action P} {p : P} {pc : CommitPc} {c d disk : Disk}
  {t : Txn} {es : List (Action P)}

/-- The commit of `s.txn`, begun on the disk `s.base`, is at `pc`. -/
structure Underway (a : Area) (s : State P) (pc : CommitPc) : Prop where
  cache : s.cache = s.txn.data
  lh : s.lh = if pc.cleared then [] else s.txn.block
  pos : pc ≠ .start → pc ≠ .done → 0 < s.txn.block.length
  disk : s.disk = crash (pc.written s.txn.block.length) (Log.commit a s.txn) s.base

theorem Underway.step (h : Underway a s pc) (hst : commitStep a p s pc = .next s') :
    ∃ pc' lh d, s' = { s with lh := lh, disk := d, loc := update s.loc p (.committing pc') } ∧ Underway a s' pc' := by
  obtain ⟨hcache, hlh, hpos, hdisk⟩ := h
  cases pc with
  | start =>
    have hlh : s.lh = s.txn.block := hlh
    simp only [commitStep, hlh] at hst
    cases hst
    refine ⟨_, _, _, rfl, ?_⟩
    split
    · next h0 => exact ⟨hcache, rfl, fun _ _ => h0, by simpa [CommitPc.written] using hdisk⟩
    · next h0 =>
      have hnil := List.eq_nil_of_length_eq_zero (Nat.eq_zero_of_not_pos h0)
      exact ⟨hcache, hnil, fun _ h => absurd rfl h, by simpa [Log.commit, hnil, crash] using hdisk⟩
  | writeLog tail =>
    have hlh : s.lh = s.txn.block := hlh
    have h0 := hpos (by simp) (by simp)
    simp only [commitStep, hlh] at hst
    split at hst
    · next hlt =>
      cases hst
      refine ⟨_, _, _, rfl, hcache, rfl, fun _ _ => h0, ?_⟩
      simp only [CommitPc.written, Nat.min_eq_left hlt.le] at hdisk
      simp only [CommitPc.written, Nat.min_eq_left hlt.nat_succ_le, hdisk, hcache]
      exact (crash_succ (commit_writeLog hlt) _).symm
    · next hge =>
      cases hst
      simp only [CommitPc.written, Nat.min_eq_right (not_lt.mp hge)] at hdisk
      exact ⟨_, _, _, rfl, hcache, rfl, fun _ _ => h0, hdisk⟩
  | writeHead =>
    have hlh : s.lh = s.txn.block := hlh
    have h0 := hpos (by simp) (by simp)
    simp only [commitStep, hlh] at hst
    cases hst
    refine ⟨_, _, _, rfl, hcache, rfl, fun _ _ => h0, ?_⟩
    rw [hdisk]
    exact (crash_succ (commit_writeHead h0) _).symm
  | install tail =>
    have hlh : s.lh = s.txn.block := hlh
    have h0 := hpos (by simp) (by simp)
    simp only [commitStep, hlh] at hst
    split at hst
    · next hlt =>
      cases hst
      refine ⟨_, _, _, rfl, hcache, rfl, fun _ _ => h0, ?_⟩
      simp only [CommitPc.written, Nat.min_eq_left hlt.le] at hdisk
      simp only [CommitPc.written, Nat.min_eq_left hlt.nat_succ_le, hdisk]
      exact (crash_succ (commit_install hlt) _).symm
    · next hge =>
      cases hst
      simp only [CommitPc.written, Nat.min_eq_right (not_lt.mp hge)] at hdisk
      exact ⟨_, _, _, rfl, hcache, rfl, fun _ _ => h0, hdisk⟩
  | clear =>
    cases hst
    exact ⟨_, _, _, rfl, hcache, rfl, fun _ _ => hpos (by simp) (by simp), hdisk⟩
  | eraseHead =>
    have hlh : s.lh = [] := hlh
    simp only [commitStep, hlh] at hst
    cases hst
    refine ⟨_, _, _, rfl, hcache, rfl, fun _ h => absurd rfl h, ?_⟩
    rw [hdisk]
    exact (crash_succ (commit_eraseHead (hpos (by simp) (by simp))) _).symm
  | done => cases hst

/-! ## Groups -/

def HomeOnly (a : Area) (_ : State P) : Action P → Prop
  | .logWrite _ b _ => ¬ a.Mem b
  | _ => True

/-- A group has found the blocks as in `c`, and the disk with nothing to recover; so far it has logged `t`. -/
structure Opened (a : Area) (c d : Disk) (t : Txn) : Prop where
  clean : Clean a d
  home : HomeEq a d c
  rest : ∀ b, ¬ a.Mem b → b ∉ t.block → c b = t.data b
  blocks : ∀ b ∈ t.block, ¬ a.Mem b

theorem Opened.apply (h : Opened a c d t) : HomeEq a (t.apply d) t.data := by
  intro b hb
  rw [Txn.apply]
  split
  · rfl
  · next hm => exact (h.home b hb).trans (h.rest b hb hm)

structure Durable (a : Area) (c : Disk) (s : State P) : Prop where
  idle : s.committing = false → Opened a c s.disk ⟨s.lh, s.cache⟩
  commit : ∀ p pc, s.loc p = .committing pc → Opened a c s.base s.txn ∧ s.txn.Fits a ∧ Underway a s pc

theorem update_committing {loc : P → Loc ℕ CommitPc} {q : P} {pc' : CommitPc} (hone : ∀ q pc, loc q = .committing pc →
    q = p)
    (h : update loc p (.committing pc) q = .committing pc') : pc' = pc := by
  by_cases hqp : q = p
  · subst hqp
    rw [update_self, Loc.committing.injEq] at h
    exact h.symm
  · rw [update_of_ne hqp] at h
    exact absurd (hone q _ h) hqp

/-- At the end of a commit a new group starts, with the blocks as they are then. -/
theorem Durable.step (h : Durable a c s) (hb : Books s) (hct : Content a s) (ha : 0 < a.size) (hok : HomeOnly a s e)
    (hst : StepCases a s e s') : Durable a c s' ∨ Durable a s'.cache s' ∧ s'.running = ∅ := by
  obtain ⟨idle, commit⟩ := h
  cases hst with
  | moved p hm =>
    obtain ⟨⟨l, rfl, hl⟩, -, -⟩ := hm
    refine .inl ⟨idle, fun q pc hq => ?_⟩
    obtain ⟨ho, hf, hu⟩ := commit q pc (by grind [update_apply])
    exact ⟨ho, hf, { hu with }⟩
  | entered p hp hc hroom he =>
    subst he
    exact .inl ⟨idle, fun q pc hq => absurd (by grind [update_apply]) (hb.not_busy hc q pc)⟩
  | wrote p id b data he hp hle hlt he' =>
    subst he he'
    have hc := hb.not_committing hp
    obtain ⟨hclean, hhome, hrest, hblocks⟩ := idle hc
    refine .inl ⟨fun _ => ⟨hclean, hhome, fun x hx hm => ?_, fun x hm => ?_⟩,
      fun q pc hq => absurd hq (hb.not_busy hc q pc)⟩
    · rw [mem_absorb, not_or] at hm
      exact (hrest x hx hm.2).trans (update_of_ne hm.1 _ _).symm
    · rcases mem_absorb.mp hm with rfl | hm
      · exact hok
      · exact hblocks x hm
  | last p id hp hc ho he =>
    subst he
    refine .inl ⟨nofun, fun q pc hq => ?_⟩
    obtain rfl := update_committing (fun q pc hq => absurd hq (hb.not_busy hc q pc)) hq
    refine ⟨idle hc, ⟨hct.nodup, hct.le, ?_, (idle hc).blocks⟩, rfl, rfl, fun h => absurd rfl h, rfl⟩
    rcases hct.lt with h0 | hlt
    · rw [h0]
      exact ha
    · exact hlt
  | left p id hp hc ho he =>
    subst he
    exact .inl ⟨idle, fun q pc hq =>
      absurd (by grind [update_apply, wakeup_eq_committing]) (hb.not_busy hc q pc)⟩
  | commit p pc hp hst =>
    have hcm := hb.busy.mpr ⟨p, pc, hp⟩
    obtain ⟨ho, hf, hu⟩ := commit p pc hp
    obtain ⟨pc', lh, d, rfl, hu'⟩ := hu.step hst
    refine .inl ⟨fun h0 => absurd (h0.symm.trans hcm) (by decide), fun q pc'' hq => ?_⟩
    obtain rfl := update_committing (fun q pc hq => hb.one q p _ _ hq hp) hq
    exact ⟨ho, hf, hu'⟩
  | finished p hp he =>
    subst he
    obtain ⟨ho, hf, hu⟩ := commit p _ hp
    have hdisk : s.disk = run (Log.commit a s.txn) s.base := hu.disk.trans (crash_of_length_le length_commit_le _)
    obtain ⟨hclean, hhome⟩ := run_commit hf ho.clean
    rw [← hdisk] at hclean hhome
    have hlh : s.lh = [] := hu.lh
    refine .inr ⟨⟨fun _ => ⟨hclean, ?_, fun _ _ _ => rfl, ?_⟩, fun q pc hq => ?_⟩,
      hb.none_iff.mpr (hb.quiet (hb.busy.mpr ⟨p, _, hp⟩))⟩
    · exact hhome.trans (hu.cache ▸ ho.apply)
    · simp [finish, hlh]
    · have hqp : q ≠ p := by
        rintro rfl
        simp [finish] at hq
      simp only [finish, update_of_ne hqp, wakeup_eq_committing] at hq
      exact absurd (hb.one q p _ _ hq hp) hqp

theorem run_durable (ha : 0 < a.size) (hc : Clean a disk) (h : Run (step a) (HomeOnly a) (GroupCommit.init disk) es s) :
    ∃ pre s₁, pre <+: es ∧ Run (step a) (HomeOnly a) (GroupCommit.init disk) pre s₁ ∧ s₁.running = ∅ ∧
      Durable a s₁.cache s := by
  induction h with
  | nil =>
    exact ⟨[], _, List.prefix_rfl, .nil, rfl, fun _ => ⟨hc, fun _ _ => rfl, fun _ _ _ => rfl, nofun⟩, nofun⟩
  | snoc hrun hok hst ih =>
    obtain ⟨pre, s₁, hpre, hrun₁, hidle, hd⟩ := ih
    obtain ⟨hb, hct⟩ := run_books hrun
    rcases hd.step hb hct ha hok (step_cases hst) with hd' | ⟨hd', hidle'⟩
    · exact ⟨pre, s₁, hpre.trans (List.prefix_append _ _), hrun₁, hidle, hd'⟩
    · exact ⟨_, _, List.prefix_rfl, hrun.snoc hok hst, hidle', hd'⟩

/-! ## What is recovered -/

/-- The commit has written the header. -/
def Headed (s : State P) : Prop :=
  ∃ p pc, s.loc p = .committing pc ∧ s.txn.block.length < pc.written s.txn.block.length

omit [DecidableEq P] in
theorem Durable.recoverable (h : Durable a c s) (hb : Books s) : Headed s ∧ Recoverable a s.cache s.disk ∨
    ¬ Headed s ∧ ¬ Cleared s ∧ Recoverable a c s.disk ∧ ∀ b, ¬ a.Mem b → b ∉ s.lh → c b = s.cache b := by
  cases hc : s.committing with
  | false =>
    have ho := h.idle hc
    refine .inr ⟨?_, hb.not_cleared hc, .inl ⟨ho.clean, ho.home⟩, ho.rest⟩
    rintro ⟨p, pc, hp, -⟩
    exact hb.not_busy hc p pc hp
  | true =>
    obtain ⟨p, pc, hp⟩ := hb.busy.mp hc
    obtain ⟨ho, hf, hcache, hlh, -, hdisk⟩ := h.commit p pc hp
    have hr := crash_recoverable hf ho.clean (pc.written s.txn.block.length)
    rw [← hdisk] at hr
    by_cases hk : s.txn.block.length < pc.written s.txn.block.length
    · rw [if_pos hk] at hr
      exact .inl ⟨⟨p, pc, hp, hk⟩, hr.trans (hcache ▸ ho.apply)⟩
    · rw [if_neg hk] at hr
      have hone : ∀ {q pc'}, s.loc q = .committing pc' → pc' = pc := by
        intro q pc' hq
        obtain rfl := hb.one q p _ _ hq hp
        rw [hp, Loc.committing.injEq] at hq
        exact hq.symm
      have hcl : pc.cleared = false := by
        cases pc <;> simp_all [CommitPc.written, CommitPc.cleared]
      refine .inr ⟨?_, ?_, hr.trans ho.home, ?_⟩
      · rintro ⟨q, pc', hq, hk'⟩
        exact hk (hone hq ▸ hk')
      · rintro ⟨q, pc', hq, hcl'⟩
        rw [hone hq, hcl] at hcl'
        cases hcl'
      · rw [hlh, hcl, hcache]
        exact ho.rest

/-- **Crash atomicity of runs.** In whatever state of whatever interleaving the machine stops, and however
often recovery is cut, the home blocks are what had been logged at a moment of the run at which no operation was under
way: now, once the header is written, and otherwise one since when only the last group has logged anything. -/
theorem run_crash_atomic (a : Area) (ha : 0 < a.size) (disk : Disk) (hc : Clean a disk) (es : List (Action P)) (s : State P)
    (h : Run (step a) (HomeOnly a) (GroupCommit.init disk) es s) (ks : List ℕ) :
    ∃ pre s₁, pre <+: es ∧ Run (step a) (HomeOnly a) (GroupCommit.init disk) pre s₁ ∧ s₁.running = ∅ ∧
      HomeEq a (recovered a (crashAll a ks s.disk)) s₁.cache ∧
      (Headed s → s₁ = s) ∧ ∀ b, ¬ a.Mem b → latest s.writes b = none → s₁.cache b = s.cache b := by
  obtain ⟨pre, s₁, hpre, hrun₁, hidle, hd⟩ := run_durable ha hc h
  obtain ⟨hb, hct⟩ := run_books h
  rcases hd.recoverable hb with ⟨hs, hr⟩ | ⟨hs, hcl, hr, hun⟩
  · refine ⟨es, s, List.prefix_rfl, h, ?_, (hr.crashAll ks).recovered.2, fun _ => rfl, fun _ _ _ => rfl⟩
    obtain ⟨p, pc, hp, -⟩ := hs
    exact hb.none_iff.mpr (hb.quiet (hb.busy.mpr ⟨p, pc, hp⟩))
  · refine ⟨pre, s₁, hpre, hrun₁, hidle, (hr.crashAll ks).recovered.2, fun hs' => absurd hs' hs, fun b hmem hnone => ?_⟩
    refine hun b hmem fun hm => ?_
    rw [hct.logged hcl b, if_pos hm] at hnone
    cases hnone

theorem sampleRun_crash_atomic :
    ∃ s pre s₁, Run (step sampleArea) (HomeOnly sampleArea) (GroupCommit.init fun _ _ => 0) sampleRun s ∧
      pre <+: sampleRun ∧ Run (step sampleArea) (HomeOnly sampleArea) (GroupCommit.init fun _ _ => 0) pre s₁ ∧
      s₁.running = ∅ ∧ HomeEq sampleArea (recovered sampleArea (crashAll sampleArea [1] s.disk)) s₁.cache := by
  have hok : Admitted (step sampleArea) (HomeOnly sampleArea) sampleRun (GroupCommit.init fun _ _ => 0) := by
    simp [sampleRun, Admitted, HomeOnly, Area.Mem, sampleArea]
  have hrun := Run.of_exec hok rfl
  obtain ⟨pre, s₁, hpre, hrun₁, hidle, hr, -⟩ := run_crash_atomic sampleArea (by decide) (fun _ _ => 0) rfl sampleRun _
    hrun [1]
  exact ⟨_, pre, s₁, hrun, hpre, hrun₁, hidle, hr⟩

end Xv6Boot.Kernel.GroupCommit
