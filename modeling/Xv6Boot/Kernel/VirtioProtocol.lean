import Xv6Boot.Kernel.VirtioDisk

/-! # Driver, interrupt handler and device

Every descriptor that is not free belongs to the chain of one request, and every request the device has not
reported done is in exactly one place: in the avail ring, with the device, or in the used ring.
-/

namespace Xv6Boot.Kernel.VirtioDisk
open Function Transition
section
variable {P B : Type}

def Chain.idxs (c : Chain B) : List ℕ := [c.idx0, c.idx1, c.idx2]

theorem Chain.idx0_mem (c : Chain B) : c.idx0 ∈ c.idxs := by simp [idxs]

theorem Chain.idx1_mem (c : Chain B) : c.idx1 ∈ c.idxs := by simp [idxs]

theorem Chain.idx2_mem (c : Chain B) : c.idx2 ∈ c.idxs := by simp [idxs]

namespace Pc

def chain : Pc B → Option (Chain B)
  | .ring c | .publish c | .wait c _ | .asleep c _ => some c
  | _ => none

def posted : Pc B → Option (Chain B × ℕ)
  | .wait c n | .asleep c n => some (c, n)
  | _ => none

def buf : Pc B → Option B
  | .out => none
  | .start b _ => some b
  | .ring c | .publish c | .wait c _ | .asleep c _ => some c.b

def inLock : Pc B → Bool
  | .ring _ | .publish _ | .wait _ _ => true
  | _ => false

theorem chain_of_posted {pc : Pc B} {c : Chain B} {n : ℕ} (h : pc.posted = some (c, n)) : pc.chain = some c := by
  cases pc <;> simp_all [posted, chain]

theorem buf_of_chain {pc : Pc B} {c : Chain B} (h : pc.chain = some c) : pc.buf = some c.b := by
  cases pc <;> simp_all [buf, chain]

end Pc

/-! ## The invariant -/

/-- The three descriptors are taken, and linked as `virtio_disk_rw` formats them. -/
structure Wired (desc : ℕ → Desc B) (free : ℕ → Bool) (c : Chain B) : Prop where
  nodup : c.idxs.Nodup
  lt : ∀ i ∈ c.idxs, i < NUM
  used : ∀ i ∈ c.idxs, free i = false
  flags0 : (desc c.idx0).flags &&& VRING_DESC_F_NEXT ≠ 0
  next0 : (desc c.idx0).next = c.idx1
  flags1 : (desc c.idx1).flags &&& VRING_DESC_F_NEXT ≠ 0
  next1 : (desc c.idx1).next = c.idx2
  flags2 : (desc c.idx2).flags &&& VRING_DESC_F_NEXT = 0
  addr2 : (desc c.idx2).addr = .status c.idx0

structure Formed (s : State P B) (c : Chain B) : Prop extends Wired s.desc s.free c where
  info : (s.info c.idx0).b = some c.b

structure Chains (s : State P B) : Prop where
  formed : ∀ p c, (s.pc p).chain = some c → Formed s c
  apart : ∀ p q c c' i, (s.pc p).chain = some c → (s.pc q).chain = some c' → i ∈ c.idxs → i ∈ c'.idxs → p = q
  owned : ∀ i < NUM, s.free i = false → ∃ p c, (s.pc p).chain = some c ∧ i ∈ c.idxs

structure Locks (s : State P B) : Prop where
  lock : ∀ p, s.lock = some (.proc p) ↔ (s.pc p).inLock = true
  held : ∀ p b, (s.pc p).buf = some b → s.held b = some p

/-- Request number `n` has `head` as its first descriptor, and a process waits for it. -/
def Awaited (s : State P B) (n head : ℕ) : Prop := ∃ p c, (s.pc p).posted = some (c, n) ∧ c.idx0 = head

structure Queues (s : State P B) : Prop where
  availIdx : s.availIdx = BitVec.ofNat 16 s.published.length
  lastAvail : s.lastAvail = BitVec.ofNat 16 s.consumed.length
  usedRingIdx : s.usedRingIdx = BitVec.ofNat 16 s.completed.length
  usedIdx : s.usedIdx = BitVec.ofNat 16 s.processed.length
  avail : Ring.Holds NUM s.availRing s.published s.consumed
  used : Ring.Holds NUM s.usedRing (s.completed.map (·.2)) s.processed
  ringed : ∀ p c, s.pc p = .publish c →
    s.availRing (s.published.length % NUM) = c.idx0 ∧ s.published.length < s.consumed.length + NUM
  fresh : ∀ p c, s.pc p = .ring c ∨ s.pc p = .publish c → s.busy c.b = true
  posted : ∀ p c n, (s.pc p).posted = some (c, n) → n < s.published.length
  done : ∀ p c n, (s.pc p).posted = some (c, n) → s.busy c.b = false →
    n ∈ (s.completed.take s.processed.length).map (·.1)
  unique : ∀ p q c c' n, (s.pc p).posted = some (c, n) → (s.pc q).posted = some (c', n) → p = q
  unconsumed : ∀ n, s.consumed.length ≤ n → ∀ h : n < s.published.length, Awaited s n s.published[n]
  pending : ∀ e ∈ s.pending, e.1 < s.consumed.length ∧ Awaited s e.1 e.2
  completed : ∀ e ∈ s.completed, e.1 < s.consumed.length
  unprocessed : ∀ e ∈ s.completed.drop s.processed.length, Awaited s e.1 e.2 ∧ (s.info e.2).status = 0
  nodup : ((s.pending ++ s.completed).map (·.1)).Nodup

structure Inv (s : State P B) : Prop where
  chains : Chains s
  locks : Locks s
  queues : Queues s

variable {s s' : State P B} {c c' : Chain B} {p q : P}

theorem Formed.congr (h : Formed s c) (hf : ∀ i ∈ c.idxs, s'.free i = s.free i)
    (hd : ∀ i ∈ c.idxs, s'.desc i = s.desc i) (hi : (s'.info c.idx0).b = (s.info c.idx0).b) : Formed s' c := by
  have h0 := hd c.idx0 c.idx0_mem
  have h1 := hd c.idx1 c.idx1_mem
  have h2 := hd c.idx2 c.idx2_mem
  refine ⟨⟨h.nodup, h.lt, fun i hi => (hf i hi).trans (h.used i hi), ?_, ?_, ?_, ?_, ?_, ?_⟩, hi.trans h.info⟩
  · rw [h0]
    exact h.flags0
  · rw [h0]
    exact h.next0
  · rw [h1]
    exact h.flags1
  · rw [h1]
    exact h.next1
  · rw [h2]
    exact h.flags2
  · rw [h2]
    exact h.addr2

theorem Formed.statusAddr (h : Formed s c) : s.statusAddr c.idx0 = .status c.idx0 := by
  rw [State.statusAddr, h.next0, h.next1, h.addr2]

theorem Chains.congr (h : Chains s) (hc : ∀ q, (s'.pc q).chain = (s.pc q).chain) (hf : ∀ i, s'.free i = s.free i)
    (hd : ∀ i, s.free i = false → s'.desc i = s.desc i) (hi : ∀ i, (s'.info i).b = (s.info i).b) : Chains s' := by
  refine ⟨fun p c hp => ?_, fun p q c c' i hp hq => ?_, fun i hi' hfree => ?_⟩
  · rw [hc] at hp
    have hform := h.formed p c hp
    exact hform.congr (fun i _ => hf i) (fun i hi => hd i (hform.used i hi)) (hi _)
  · rw [hc] at hp hq
    exact h.apart p q c c' i hp hq
  · rw [hf] at hfree
    obtain ⟨p, c, hp, hic⟩ := h.owned i hi' hfree
    exact ⟨p, c, (hc p).trans hp, hic⟩

theorem Locks.congr (h : Locks s) (hl : s'.lock = s.lock) (hh : s'.held = s.held) (hp : s'.pc = s.pc) : Locks s' := by
  refine ⟨fun p => ?_, fun p b => ?_⟩
  · rw [hl, hp]
    exact h.lock p
  · rw [hh, hp]
    exact h.held p b

theorem Locks.inLock_unique (h : Locks s) (hp : (s.pc p).inLock = true) (hq : (s.pc q).inLock = true) : p = q := by
  have hp := (h.lock p).mpr hp
  have hq := (h.lock q).mpr hq
  rw [hp] at hq
  injection hq with hq
  injection hq

theorem Locks.not_inLock (h : Locks s) (hl : ∀ p, s.lock ≠ some (.proc p)) (p : P) : (s.pc p).inLock = false := by
  have := mt (h.lock p).mpr (hl p)
  simpa using this

theorem Locks.buf_unique (h : Locks s) {b : B} (hp : (s.pc p).buf = some b) (hq : (s.pc q).buf = some b) : p = q := by
  have hp := h.held p b hp
  have hq := h.held q b hq
  rw [hp] at hq
  exact Option.some.inj hq

/-! ## How many requests there can be -/

theorem Inv.heads (h : Inv s) {L : List (ℕ × ℕ)} (hnd : (L.map (·.1)).Nodup) (hL : ∀ e ∈ L, Awaited s e.1 e.2) :
    (L.map (·.2)).Nodup := by
  refine List.Nodup.map_on (fun e he e' he' heq => ?_) hnd.of_map
  obtain ⟨p, c, hp, hc⟩ := hL e he
  obtain ⟨q, c', hq, hc'⟩ := hL e' he'
  have hpq : p = q := by
    refine h.chains.apart p q c c' e.2 (Pc.chain_of_posted hp) (Pc.chain_of_posted hq) ?_ ?_
    · exact hc ▸ c.idx0_mem
    · exact heq ▸ hc' ▸ c'.idx0_mem
  subst hpq
  rw [hp] at hq
  have hn : e.1 = e'.1 := congrArg Prod.snd (Option.some.inj hq)
  exact Prod.ext hn heq

theorem Awaited.lt (h : Inv s) {n head : ℕ} (ha : Awaited s n head) : head < NUM := by
  obtain ⟨p, c, hp, rfl⟩ := ha
  exact (h.chains.formed p c (Pc.chain_of_posted hp)).lt _ c.idx0_mem

theorem Inv.length_lt (h : Inv s) {L : List (ℕ × ℕ)} (hnd : (L.map (·.1)).Nodup)
    (hL : ∀ e ∈ L, Awaited s e.1 e.2) {x : ℕ} (hx : x < NUM) (hxL : ∀ e ∈ L, e.2 ≠ x) : L.length < NUM := by
  have hcons : (x :: L.map (·.2)).Nodup := by
    refine List.nodup_cons.mpr ⟨fun hm => ?_, h.heads hnd hL⟩
    obtain ⟨e, he, hex⟩ := List.mem_map.mp hm
    exact hxL e he hex
  have hsub : x :: L.map (·.2) ⊆ List.range NUM := by
    intro i hi
    rw [List.mem_range]
    rcases List.mem_cons.mp hi with rfl | hi
    · exact hx
    · obtain ⟨e, he, rfl⟩ := List.mem_map.mp hi
      exact (hL e he).lt h
  have hle := (List.subperm_of_subset hcons hsub).length_le
  simpa using hle

def State.unconsumedEntries (s : State P B) : List (ℕ × ℕ) :=
  (List.range' s.consumed.length (s.published.length - s.consumed.length)).map fun n => (n, s.published.getD n 0)

theorem Inv.published_lt (h : Inv s) (hp : (s.pc p).chain = some c) (hn : (s.pc p).posted = none) :
    s.published.length < s.consumed.length + NUM := by
  have hform := h.chains.formed p c hp
  have haw : ∀ e ∈ s.unconsumedEntries, Awaited s e.1 e.2 := by
    intro e he
    obtain ⟨n, hn, rfl⟩ := List.mem_map.mp he
    obtain ⟨h1, h2⟩ := List.mem_range'_1.mp hn
    have hlt : n < s.published.length := by omega
    rw [List.getD_eq_getElem _ _ hlt]
    exact h.queues.unconsumed n h1 hlt
  have hlen : s.unconsumedEntries.length < NUM := by
    refine h.length_lt ?_ haw (hform.lt c.idx0 c.idx0_mem) fun e he hex => ?_
    · rw [State.unconsumedEntries, List.map_map]
      exact (List.map_id _).symm ▸ List.nodup_range'
    · obtain ⟨q, c', hq, hc'⟩ := haw e he
      have hpq : p = q := by
        refine h.chains.apart p q c c' c.idx0 hp (Pc.chain_of_posted hq) ?_ ?_
        · exact c.idx0_mem
        · exact hex ▸ hc' ▸ c'.idx0_mem
      subst hpq
      rw [hn] at hq
      cases hq
  rw [State.unconsumedEntries, List.length_map, List.length_range'] at hlen
  omega

theorem Inv.completed_lt (h : Inv s) {e : ℕ × ℕ} (he : e ∈ s.pending) :
    s.completed.length < s.processed.length + NUM := by
  have haw := fun e' he' => (h.queues.unprocessed e' he').1
  have hnd := h.queues.nodup
  rw [List.map_append, List.nodup_append] at hnd
  have hlen : (s.completed.drop s.processed.length).length < NUM := by
    refine h.length_lt ?_ haw ((h.queues.pending e he).2.lt h) fun e' he' hee => ?_
    · exact hnd.2.1.sublist ((List.drop_sublist _ _).map _)
    · obtain ⟨p, c, hp, hc⟩ := (h.queues.pending e he).2
      obtain ⟨q, c', hq, hc'⟩ := haw e' he'
      have hpq : p = q := by
        refine h.chains.apart p q c c' e.2 (Pc.chain_of_posted hp) (Pc.chain_of_posted hq) ?_ ?_
        · exact hc ▸ c.idx0_mem
        · exact hee ▸ hc' ▸ c'.idx0_mem
      subst hpq
      rw [hp] at hq
      have hn : e.1 = e'.1 := congrArg Prod.snd (Option.some.inj hq)
      exact hnd.2.2 _ (List.mem_map_of_mem he) _ (List.mem_map_of_mem (List.mem_of_mem_drop he')) hn
  rw [List.length_drop] at hlen
  omega

/-! ## Descriptors -/

theorem allocDesc_cases (s : State P B) :
    s.allocDesc = none ∨ ∃ i, i < NUM ∧ s.free i = true ∧
      s.allocDesc = some (i, { s with free := update s.free i false }) := by
  unfold State.allocDesc
  cases hf : (List.range NUM).find? s.free with
  | none => exact .inl rfl
  | some i =>
    have hi := List.mem_range.mp (List.mem_of_find?_eq_some hf)
    have hfree := List.find?_some hf
    exact .inr ⟨i, hi, hfree, rfl⟩

theorem freeDesc_eq {i : ℕ} (hi : i < NUM) (hf : s.free i = false) : s.freeDesc i = .next { s with
    desc := update s.desc i ⟨.null, 0, 0, 0⟩
    free := update s.free i true } := by
  rw [State.freeDesc, if_neg (not_le.mpr hi), hf]
  rfl

def State.taken (s : State P B) (i0 i1 i2 : ℕ) : State P B :=
  { s with free := update (update (update s.free i0 false) i1 false) i2 false }

/-- All three descriptors were free, or none is taken; what a failed attempt clears was free before. -/
inductive Alloc3 (s : State P B) : Prop
  | got (i0 i1 i2 : ℕ) (nodup : [i0, i1, i2].Nodup) (lt : ∀ i ∈ [i0, i1, i2], i < NUM)
      (free : ∀ i ∈ [i0, i1, i2], s.free i = true)
      (eq : s.alloc3Desc = .next (some (i0, i1, i2), s.taken i0 i1 i2))
  | none (desc : ℕ → Desc B) (same : ∀ i, s.free i = false → desc i = s.desc i)
      (eq : s.alloc3Desc = .next (none, { s with desc := desc }))

theorem alloc3Desc_cases (s : State P B) : Alloc3 s := by
  rcases allocDesc_cases s with h0 | ⟨i0, hi0, hf0, h0⟩
  · exact .none s.desc (fun _ _ => rfl) (by rw [State.alloc3Desc, h0])
  rcases allocDesc_cases { s with free := update s.free i0 false } with h1 | ⟨i1, hi1, hf1, h1⟩
  · refine .none (update s.desc i0 ⟨.null, 0, 0, 0⟩) (fun i hi => ?_) ?_
    · have hne : i ≠ i0 := by
        rintro rfl
        rw [hf0] at hi
        cases hi
      exact update_of_ne hne _ _
    · rw [State.alloc3Desc, h0]
      dsimp only
      rw [h1]
      dsimp only
      rw [freeDesc_eq hi0 (update_self ..)]
      simp only [Outcome.map, update_idem]
      rw [← hf0, update_eq_self]
  · have hne1 : i1 ≠ i0 := by
      rintro rfl
      simp at hf1
    have hf1' : s.free i1 = true := by simpa [hne1] using hf1
    rcases allocDesc_cases { s with free := update (update s.free i0 false) i1 false } with
      h2 | ⟨i2, hi2, hf2, h2⟩
    · refine .none (update (update s.desc i0 ⟨.null, 0, 0, 0⟩) i1 ⟨.null, 0, 0, 0⟩)
        (fun i hi => ?_) ?_
      · have hne0 : i ≠ i0 := by
          rintro rfl
          rw [hf0] at hi
          cases hi
        have hne1 : i ≠ i1 := by
          rintro rfl
          rw [hf1'] at hi
          cases hi
        rw [update_of_ne hne1, update_of_ne hne0]
      · have hfree : update (update (update (update s.free i0 false) i1 false)
            i0 true) i1 true = s.free := by
          funext i
          simp only [update_apply]
          split
          · next hi => rw [hi, hf1']
          · split
            · next hi => rw [hi, hf0]
            · rfl
        rw [State.alloc3Desc, h0]
        dsimp only
        rw [h1]
        dsimp only
        rw [h2]
        dsimp only
        rw [freeDesc_eq hi0 (by simp [Ne.symm hne1]), Outcome.bind, freeDesc_eq hi1 (by simp [hne1])]
        simp only [Outcome.map, hfree]
    · have hne2 : i2 ≠ i1 := by
        rintro rfl
        simp at hf2
      have hne2' : i2 ≠ i0 := by
        rintro rfl
        simp [Ne.symm hne1] at hf2
      have hf2' : s.free i2 = true := by simpa [hne2, hne2'] using hf2
      refine .got i0 i1 i2 ?_ ?_ ?_ ?_
      · simp [Ne.symm hne1, Ne.symm hne2, Ne.symm hne2']
      · simp [hi0, hi1, hi2]
      · simp [hf0, hf1', hf2']
      · rw [State.alloc3Desc, h0]
        dsimp only
        rw [h1]
        dsimp only
        rw [h2]
        rfl

/-- What is left of a chain after `free_chain`. -/
def State.freed (s : State P B) (c : Chain B) : State P B := { s with
  desc := update (update (update s.desc c.idx0 ⟨.null, 0, 0, 0⟩) c.idx1 ⟨.null, 0, 0, 0⟩)
    c.idx2 ⟨.null, 0, 0, 0⟩
  free := update (update (update s.free c.idx0 true) c.idx1 true) c.idx2 true }

theorem Wired.freeChain (h : Wired s.desc s.free c) : State.freeChain NUM c.idx0 s = .next (s.freed c) := by
  have hnd := h.nodup
  simp only [Chain.idxs, List.nodup_cons, List.mem_cons, List.not_mem_nil, or_false, not_or, not_false_eq_true,
    List.nodup_nil, and_true] at hnd
  obtain ⟨⟨h01, h02⟩, h12⟩ := hnd
  have u1 := h.used _ c.idx1_mem
  have u2 := h.used _ c.idx2_mem
  rw [NUM, State.freeChain, freeDesc_eq (h.lt _ c.idx0_mem) (h.used _ c.idx0_mem)]
  simp only [Outcome.bind]
  rw [if_pos h.flags0, h.next0, State.freeChain, freeDesc_eq (h.lt _ c.idx1_mem) (by simp [Ne.symm h01, u1])]
  simp only [Outcome.bind, update_of_ne (Ne.symm h01)]
  rw [if_pos h.flags1, h.next1, State.freeChain,
    freeDesc_eq (h.lt _ c.idx2_mem) (by simp [Ne.symm h02, Ne.symm h12, u2])]
  simp only [Outcome.bind, update_of_ne (Ne.symm h02), update_of_ne (Ne.symm h12)]
  rw [if_neg (not_not.mpr h.flags2)]
  rfl

end

/-! ## Steps -/

section Steps
variable {P B : Type} {s s' : State P B} {c : Chain B} {p : P} {n : ℕ} {pc : Pc B}
  {b : B}

theorem Awaited.congr {head : ℕ} (h : Awaited s n head) (hp : ∀ q, (s'.pc q).posted = (s.pc q).posted) :
    Awaited s' n head := by
  obtain ⟨q, c, hq, hc⟩ := h
  exact ⟨q, c, (hp q).trans hq, hc⟩

theorem Queues.congr (h : Queues s) {lock : Option (Holder P)} {held : B → Option P} {free : ℕ → Bool}
    {desc : ℕ → Desc B} {ops : ℕ → Op} {pc : P → Pc B} {info : ℕ → Info B} {busy : B → Bool}
    (hp : ∀ q, (pc q).posted = (s.pc q).posted) (hpub : ∀ q c, pc q = .publish c → s.pc q = .publish c)
    (hst : ∀ n head, Awaited s n head → (s.info head).status = 0 → (info head).status = 0)
    (hb : ∀ b, busy b = false → s.busy b = false) (hfr : ∀ q c, pc q = .ring c ∨ pc q = .publish c → busy c.b = true) :
    Queues { s with lock, held, free, desc, ops, pc, info, busy } := by
  have haw : ∀ {n head}, Awaited s n head →
      Awaited { s with lock, held, free, desc, ops, pc, info, busy } n head := fun ha => ha.congr hp
  refine ⟨h.availIdx, h.lastAvail, h.usedRingIdx, h.usedIdx, h.avail, h.used, fun q c hq => h.ringed q c (hpub q c hq),
    hfr, fun q c n hq => ?_, fun q c n hq hbusy => ?_, fun q q' c c' n hq hq' => ?_, fun n hn hlt => ?_, fun e he => ?_,
    h.completed, fun e he => ?_, h.nodup⟩
  · exact h.posted q c n ((hp q).symm.trans hq)
  · exact h.done q c n ((hp q).symm.trans hq) (hb _ hbusy)
  · exact h.unique q q' c c' n ((hp q).symm.trans hq) ((hp q').symm.trans hq')
  · exact haw (h.unconsumed n hn hlt)
  · exact ⟨(h.pending e he).1, haw (h.pending e he).2⟩
  · obtain ⟨ha, hs⟩ := h.unprocessed e he
    exact ⟨haw ha, hst _ _ ha hs⟩

theorem Inv.setLock {lock : Option (Holder P)} (h : Inv s) (hs : ∀ p, s.lock ≠ some (.proc p))
    (hl : ∀ p, lock ≠ some (.proc p)) : Inv { s with lock } := by
  refine ⟨h.chains.congr (fun _ => rfl) (fun _ => rfl) (fun _ _ => rfl) fun _ => rfl, ⟨fun q => ?_, h.locks.held⟩,
    h.queues.congr (fun _ => rfl) (fun _ _ => id) (fun _ _ _ => id) (fun _ => id) h.queues.fresh⟩
  have hq := h.locks.not_inLock hs q
  simp [hl, hq]

theorem Inv.not_tracked (h : Inv s) (hp : (s.pc p).posted = some (c, n)) (hb : s.busy c.b = false) :
    n < s.consumed.length ∧ (∀ e ∈ s.pending, e.1 ≠ n) ∧ ∀ e ∈ s.completed.drop s.processed.length, e.1 ≠ n := by
  have hdone := h.queues.done p c n hp hb
  obtain ⟨e₀, he₀, hn⟩ := List.mem_map.mp hdone
  have hmem : e₀ ∈ s.completed := List.mem_of_mem_take he₀
  have hnd := h.queues.nodup
  rw [List.map_append, List.nodup_append] at hnd
  refine ⟨hn ▸ h.queues.completed e₀ hmem, fun e he hen => ?_, fun e he hen => ?_⟩
  · exact hnd.2.2 e.1 (List.mem_map_of_mem he) e₀.1 (List.mem_map_of_mem hmem) (hen.trans hn.symm)
  · have hsplit := hnd.2.1
    rw [← List.take_append_drop s.processed.length s.completed, List.map_append, List.nodup_append] at hsplit
    exact hsplit.2.2 e₀.1 (List.mem_map_of_mem he₀) e.1 (List.mem_map_of_mem he) (hn.trans hen.symm)

/-- The next entry of the used ring is that of a request somebody waits for. -/
theorem Inv.intr_entry (h : Inv s) (hne : s.usedIdx ≠ s.usedRingIdx) : ∃ q c m,
    (s.pc q).posted = some (c, m) ∧ s.usedRing (s.usedIdx.toNat % NUM) = c.idx0 ∧ (s.info c.idx0).status = 0 ∧
    (s.info c.idx0).b = some c.b ∧ s.processed.length < s.completed.length ∧
    m ∈ (s.completed.take (s.processed.length + 1)).map (·.1) := by
  have hqs := h.queues
  have hle : s.processed.length ≤ s.completed.length := by simpa using hqs.used.length_le
  have hlt : s.processed.length < s.completed.length := by
    refine lt_of_le_of_ne hle fun he => hne ?_
    rw [hqs.usedIdx, hqs.usedRingIdx, he]
  have hcell : s.usedRing (s.usedIdx.toNat % NUM) = s.completed[s.processed.length].2 := by
    rw [hqs.usedIdx, Ring.counter_mod (by decide), hqs.used.cells _ le_rfl (by simpa using hlt)]
    simp
  have hmem : s.completed[s.processed.length] ∈ s.completed.drop s.processed.length := by
    rw [List.drop_eq_getElem_cons hlt]
    exact List.mem_cons_self
  obtain ⟨⟨q, c, hq, hc⟩, hs⟩ := hqs.unprocessed _ hmem
  have htake : s.completed[s.processed.length] ∈ s.completed.take (s.processed.length + 1) := by
    rw [List.take_succ_eq_append_getElem hlt]
    exact List.mem_append_right _ List.mem_cons_self
  exact ⟨q, c, _, hq, hcell.trans hc.symm, hc ▸ hs, (h.chains.formed q c (Pc.chain_of_posted hq)).info, hlt,
    List.mem_map_of_mem htake⟩

theorem Inv.processed [DecidableEq B] {id : ℕ} {q : P} (h : Inv s) (hq : (s.pc q).posted = some (c, n)) (hid : c.idx0 = id)
    (hb : c.b = b) (hring : s.usedRing (s.usedIdx.toNat % NUM) = id) (hlt : s.processed.length < s.completed.length)
    (hn : n ∈ (s.completed.take (s.processed.length + 1)).map (·.1)) : Inv { s with
      busy := update s.busy b false
      usedIdx := s.usedIdx + 1
      processed := s.processed ++ [id] } := by
  subst hid hb
  have hqs := h.queues
  have hlen : (s.processed ++ [c.idx0]).length = s.processed.length + 1 := by simp
  have hbuf : (s.pc q).buf = some c.b := Pc.buf_of_chain (Pc.chain_of_posted hq)
  refine ⟨h.chains.congr (fun _ => rfl) (fun _ => rfl) (fun _ _ => rfl) fun _ => rfl, h.locks.congr rfl rfl rfl,
    hqs.availIdx, hqs.lastAvail, hqs.usedRingIdx, ?_, hqs.avail, ?_, hqs.ringed, fun q' c' hq' => ?_, hqs.posted,
    fun q' c' m hq' hbusy => ?_, hqs.unique, hqs.unconsumed, hqs.pending, hqs.completed, fun e he => ?_, hqs.nodup⟩
  · dsimp only
    rw [hlen, hqs.usedIdx, Ring.counter_succ]
  · have htake := hqs.used.take (by simpa using hlt)
    rwa [← Ring.counter_mod (w := 16) (by decide), ← hqs.usedIdx, hring] at htake
  · have hne : c'.b ≠ c.b := by
      intro he
      have hbuf' : (s.pc q').buf = some c.b := by
        rw [← he]
        rcases hq' with hq' | hq' <;> rw [show s.pc q' = _ from hq'] <;> rfl
      have hqq := h.locks.buf_unique hbuf' hbuf
      subst hqq
      rcases hq' with hq' | hq' <;> rw [show s.pc q' = _ from hq'] at hq <;> cases hq
    dsimp only
    rw [update_of_ne hne]
    exact hqs.fresh q' c' hq'
  · dsimp only at hbusy ⊢
    rw [hlen]
    by_cases he : c'.b = c.b
    · have hqq : q' = q := h.locks.buf_unique (Pc.buf_of_chain (Pc.chain_of_posted hq')) (he ▸ hbuf)
      subst hqq
      have hq'' : (s.pc q').posted = some (c', m) := hq'
      rw [hq] at hq''
      cases hq''
      exact hn
    · rw [update_of_ne he] at hbusy
      have hold := hqs.done q' c' m hq' hbusy
      obtain ⟨e, he, rfl⟩ := List.mem_map.mp hold
      exact List.mem_map_of_mem (List.take_subset_take_left _ (Nat.le_succ _) he)
  · refine hqs.unprocessed e ?_
    dsimp only at he
    rw [hlen, ← List.drop_drop] at he
    exact List.mem_of_mem_drop he

theorem Inv.consume (h : Inv s) (hne : s.lastAvail ≠ s.availIdx) : Inv { s with
    pending := s.pending ++ [(s.consumed.length, s.availRing (s.lastAvail.toNat % NUM))]
    lastAvail := s.lastAvail + 1
    consumed := s.consumed ++ [s.availRing (s.lastAvail.toNat % NUM)] } := by
  have hqs := h.queues
  have hlt : s.consumed.length < s.published.length := by
    refine lt_of_le_of_ne hqs.avail.length_le fun he => hne ?_
    rw [hqs.lastAvail, hqs.availIdx, he]
  have hidx : s.lastAvail.toNat % NUM = s.consumed.length % NUM := by
    rw [hqs.lastAvail]
    exact Ring.counter_mod (by decide) _
  have hcell : s.availRing (s.lastAvail.toNat % NUM) = s.published[s.consumed.length] := by
    rw [hidx]
    exact hqs.avail.cells _ le_rfl hlt
  have hlen : (s.consumed ++ [s.availRing (s.lastAvail.toNat % NUM)]).length = s.consumed.length + 1 := by simp
  refine ⟨h.chains.congr (fun _ => rfl) (fun _ => rfl) (fun _ _ => rfl) fun _ => rfl, h.locks.congr rfl rfl rfl,
    hqs.availIdx, ?_, hqs.usedRingIdx, hqs.usedIdx, ?_, hqs.used, fun q c hq => ?_, hqs.fresh, hqs.posted, hqs.done,
    hqs.unique, fun n hn hlt => hqs.unconsumed n ?_ hlt, fun e he => ?_, fun e he => ?_, hqs.unprocessed, ?_⟩
  · dsimp only
    rw [hlen, hqs.lastAvail, Ring.counter_succ]
  · dsimp only
    rw [hidx]
    exact hqs.avail.take hlt
  · have := hqs.ringed q c hq
    dsimp only
    rw [hlen]
    exact ⟨this.1, by omega⟩
  · dsimp only at hn
    rw [hlen] at hn
    omega
  · dsimp only at he ⊢
    rw [hlen]
    rcases List.mem_append.mp he with he | he
    · exact ⟨Nat.lt_succ_of_lt (hqs.pending e he).1, (hqs.pending e he).2⟩
    · rw [List.mem_singleton.mp he, hcell]
      exact ⟨Nat.lt_succ_self _, hqs.unconsumed _ le_rfl hlt⟩
  · dsimp only
    rw [hlen]
    exact Nat.lt_succ_of_lt (hqs.completed e he)
  · -- the number of the new chain is larger than all others
    dsimp only
    have hnew : s.consumed.length ∉ (s.pending ++ s.completed).map (·.1) := by
      intro hm
      obtain ⟨e, he, hen⟩ := List.mem_map.mp hm
      have : e.1 < s.consumed.length := by
        rcases List.mem_append.mp he with he | he
        · exact (hqs.pending e he).1
        · exact hqs.completed e he
      omega
    have hperm : ((s.pending ++ [(s.consumed.length, s.availRing (s.lastAvail.toNat % NUM))] ++ s.completed).map
        (·.1)).Perm (s.consumed.length :: (s.pending ++ s.completed).map (·.1)) := by
      rw [List.append_assoc]
      exact (List.perm_middle.map _)
    exact hperm.nodup_iff.mpr (List.nodup_cons.mpr ⟨hnew, hqs.nodup⟩)

theorem Inv.complete {k : ℕ} {e : ℕ × ℕ} (h : Inv s) (hk : s.pending[k]? = some e) :
    ∃ s', complete s k = .next s' ∧ Inv s' := by
  have hqs := h.queues
  have hmem : e ∈ s.pending := List.mem_of_getElem? hk
  obtain ⟨hlt, p, c, hp, hc⟩ := hqs.pending e hmem
  have hform := h.chains.formed p c (Pc.chain_of_posted hp)
  have haddr : s.statusAddr e.2 = .status c.idx0 := by rw [← hc, hform.statusAddr]
  have hroom := h.completed_lt hmem
  have hidx : s.usedRingIdx.toNat % NUM = s.completed.length % NUM := by
    rw [hqs.usedRingIdx]
    exact Ring.counter_mod (by decide) _
  refine ⟨{ s with
    info := update s.info c.idx0 { s.info c.idx0 with status := 0 }
    usedRing := update s.usedRing (s.usedRingIdx.toNat % NUM) e.2
    usedRingIdx := s.usedRingIdx + 1
    pending := s.pending.eraseIdx k
    completed := s.completed ++ [e] }, by rw [VirtioDisk.complete, hk]; dsimp only; rw [haddr], ?_⟩
  have hlen : (s.completed ++ [e]).length = s.completed.length + 1 := by simp
  have hle : s.processed.length ≤ s.completed.length := by simpa using hqs.used.length_le
  have hinfo : ∀ i, (update s.info c.idx0 { s.info c.idx0 with status := 0 } i).b = (s.info i).b := by
    intro i
    rw [update_apply]
    split
    · next hi => rw [hi]
    · rfl
  refine ⟨h.chains.congr (fun _ => rfl) (fun _ => rfl) (fun _ _ => rfl) hinfo, h.locks.congr rfl rfl rfl,
    hqs.availIdx, hqs.lastAvail, ?_, hqs.usedIdx, hqs.avail, ?_, hqs.ringed, hqs.fresh, hqs.posted,
    fun q c' m hq hb => ?_, hqs.unique, hqs.unconsumed, fun e' he' => hqs.pending e' (List.mem_of_mem_eraseIdx he'),
    fun e' he' => ?_, fun e' he' => ?_, ?_⟩
  · dsimp only
    rw [hlen, hqs.usedRingIdx, Ring.counter_succ]
  · dsimp only
    have hput := hqs.used.put (by simpa using hroom) e.2
    rw [hidx, List.map_append, List.map_singleton]
    simpa using hput
  · have hold := hqs.done q c' m hq hb
    dsimp only
    rwa [List.take_append_of_le_length hle]
  · rcases List.mem_append.mp he' with he' | he'
    · exact hqs.completed e' he'
    · rw [List.mem_singleton.mp he']
      exact hlt
  · dsimp only at he' ⊢
    rw [List.drop_append_of_le_length hle] at he'
    rcases List.mem_append.mp he' with he' | he'
    · obtain ⟨ha, hs⟩ := hqs.unprocessed e' he'
      refine ⟨ha, ?_⟩
      rw [update_apply]
      split
      · rfl
      · exact hs
    · rw [List.mem_singleton.mp he']
      refine ⟨⟨p, c, hp, hc⟩, ?_⟩
      rw [← hc, update_self]
  · dsimp only
    have hperm : (s.pending.eraseIdx k ++ (s.completed ++ [e])).Perm (s.pending ++ s.completed) := by
      obtain ⟨hk', rfl⟩ := List.getElem?_eq_some_iff.mp hk
      refine (List.perm_append_comm.trans ?_)
      refine List.Perm.trans ?_ List.perm_append_comm
      rw [List.append_assoc]
      refine List.Perm.append_left _ ?_
      exact (List.getElem_cons_eraseIdx_perm hk')
    exact (hperm.map _).nodup_iff.mpr hqs.nodup

theorem Inv.intrTurn [DecidableEq B] (h : Inv s) (hl : s.lock = some .intr) : ∃ s', intrTurn s = .next s' ∧ Inv s' := by
  unfold VirtioDisk.intrTurn
  by_cases hne : s.usedIdx ≠ s.usedRingIdx
  · obtain ⟨q, c, m, hq, hring, hs, hb, hlt, hm⟩ := h.intr_entry hne
    rw [if_pos hne, hring]
    dsimp only
    rw [if_neg (not_not.mpr hs), hb]
    exact ⟨_, rfl, h.processed hq rfl rfl hring hlt hm⟩
  · rw [if_neg hne]
    refine ⟨_, rfl, h.setLock (fun p hp => ?_) fun p hp => by cases hp⟩
    rw [hl] at hp
    cases hp

theorem init_inv (blockno : B → BitVec 32) : Inv (init blockno : State P B) := by
  have hchain : ∀ (p : P) c, ((init blockno : State P B).pc p).chain ≠ some c := fun p c hp => by cases hp
  have hpos : ∀ (p : P) x, ((init blockno : State P B).pc p).posted ≠ some x := fun p x hp => by cases hp
  refine ⟨⟨fun p c hp => absurd hp (hchain p c), fun p q c c' i hp => absurd hp (hchain p c), fun i hi hf => ?_⟩,
    ⟨fun p => ?_, fun p b hp => ?_⟩, rfl, rfl, rfl, rfl, Ring.Holds.nil _ _, Ring.Holds.nil _ _,
    fun p c hp => ?_, fun p c hp => ?_, fun p c n hp => absurd hp (hpos p _), fun p c n hp => absurd hp (hpos p _),
    fun p q c c' n hp => absurd hp (hpos p _), fun n _ hn => absurd hn (Nat.not_lt_zero n), ?_, ?_, ?_,
    List.nodup_nil⟩
  · simp [init, hi] at hf
  · simp [init, Pc.inLock]
  · cases hp
  · cases hp
  · rcases hp with hp | hp <;> cases hp
  · simp [init]
  · simp [init]
  · simp [init]

variable [DecidableEq P]

theorem update_same {X : Type} (g : Pc B → X) {f : P → Pc B} (h : g pc = g (f p)) (q : P) :
    g (update f p pc q) = g (f q) := by
  rw [update_apply]
  split
  · next hq => rw [h, hq]
  · rfl

theorem Locks.goto (h : Locks s) {lock : Option (Holder P)} (hbuf : pc.buf = (s.pc p).buf)
    (hl : lock = some (.proc p) ↔ pc.inLock = true)
    (hother : ∀ q, q ≠ p → (lock = some (.proc q) ↔ s.lock = some (.proc q))) : Locks { s.goto p pc with lock } := by
  refine ⟨fun q => ?_, fun q b hq => ?_⟩
  · by_cases hqp : q = p
    · subst hqp
      simpa [State.goto] using hl
    · have := (hother q hqp).trans (h.lock q)
      simpa [State.goto, hqp] using this
  · exact h.held q b ((update_same Pc.buf hbuf q).symm.trans hq)

theorem Inv.call [DecidableEq B] {write : Bool} (h : Inv s) (hp : s.pc p = .out) (hb : s.held b = none) :
    Inv { s.goto p (.start b write) with held := update s.held b (some p) } := by
  refine ⟨h.chains.congr ?_ (fun _ => rfl) (fun _ _ => rfl) (fun _ => rfl), ⟨fun q => ?_, fun q b' hq => ?_⟩,
    h.queues.congr ?_ ?_ (fun _ _ _ => id) (fun _ => id) ?_⟩
  · exact update_same Pc.chain (by rw [hp]; rfl)
  · have hlock : (update s.pc p (.start b write) q).inLock = (s.pc q).inLock :=
      update_same Pc.inLock (by rw [hp]; rfl) q
    exact (h.locks.lock q).trans (by rw [← hlock]; rfl)
  · simp only [State.goto, update_apply] at hq ⊢
    split at hq
    · next hqp =>
      injection hq with hq
      rw [if_pos hq.symm, hqp]
    · have hheld := h.locks.held q b' hq
      rw [if_neg, hheld]
      rintro rfl
      rw [hb] at hheld
      cases hheld
  · exact update_same Pc.posted (by rw [hp]; rfl)
  · intro q c hq
    simp only [State.goto, update_apply] at hq
    split at hq
    · cases hq
    · exact hq
  · intro q c hq
    simp only [State.goto, update_apply] at hq
    split at hq
    · rcases hq with hq | hq <;> cases hq
    · exact h.queues.fresh q c hq

theorem Inv.start_got [DecidableEq B] {write : Bool} (h : Inv s) (hp : s.pc p = .start c.b write) (hl : s.lock = none)
    (nodup : c.idxs.Nodup) (lt : ∀ i ∈ c.idxs, i < NUM) (free : ∀ i ∈ c.idxs, s.free i = true) :
    Inv { ((s.taken c.idx0 c.idx1 c.idx2).format write c).goto p (.ring c) with lock := some (.proc p) } := by
  have hold : ∀ q c', (s.pc q).chain = some c' → ∀ i ∈ c'.idxs, i ∉ c.idxs := by
    intro q c' hq i hi hic
    have hused := (h.chains.formed q c' hq).used i hi
    rw [free i hic] at hused
    cases hused
  have hne : ∀ i, i ∉ c.idxs → i ≠ c.idx0 ∧ i ≠ c.idx1 ∧ i ≠ c.idx2 := by
    intro i hi
    simpa [Chain.idxs] using hi
  have hchain : ∀ q c', (update s.pc p (.ring c) q).chain = some c' →
      q = p ∧ c' = c ∨ q ≠ p ∧ (s.pc q).chain = some c' := by
    intro q c' hq
    rw [update_apply] at hq
    split at hq
    · next hqp =>
      injection hq with hq
      exact .inl ⟨hqp, hq.symm⟩
    · next hqp => exact .inr ⟨hqp, hq⟩
  refine ⟨⟨fun q c' hq => ?_, fun q q' c' c'' i hq hq' hi hi' => ?_, fun i hi hfree => ?_⟩, ?_, ?_⟩
  · rcases hchain q c' hq with ⟨-, rfl⟩ | ⟨-, hq⟩
    · have hnd := nodup
      simp only [Chain.idxs, List.nodup_cons, List.mem_cons, List.not_mem_nil, or_false, not_or, not_false_eq_true,
        List.nodup_nil, and_true] at hnd
      obtain ⟨⟨h01, h02⟩, h12⟩ := hnd
      refine ⟨⟨nodup, lt, fun i hi => ?_, ?_, ?_, ?_, ?_, ?_, ?_⟩, ?_⟩
      · have hi' : i = c'.idx0 ∨ i = c'.idx1 ∨ i = c'.idx2 := by simpa [Chain.idxs] using hi
        rcases hi' with rfl | rfl | rfl <;> simp [State.format, State.goto, State.taken, update_apply]
      all_goals simp [State.format, State.goto, h01, h02, h12, VRING_DESC_F_NEXT, VRING_DESC_F_WRITE]
      split <;> decide
    · have hform := h.chains.formed q c' hq
      refine hform.congr (fun i hi => ?_) (fun i hi => ?_) ?_
      · obtain ⟨n0, n1, n2⟩ := hne i (hold q c' hq i hi)
        simp [State.format, State.goto, State.taken, n0, n1, n2]
      · obtain ⟨n0, n1, n2⟩ := hne i (hold q c' hq i hi)
        simp [State.format, State.goto, State.taken, n0, n1, n2]
      · obtain ⟨n0, n1, n2⟩ := hne c'.idx0 (hold q c' hq c'.idx0 c'.idx0_mem)
        simp [State.format, State.goto, State.taken, n0]
  · rcases hchain q c' hq with ⟨rfl, rfl⟩ | ⟨hqp, hc⟩
    · rcases hchain q' c'' hq' with ⟨rfl, -⟩ | ⟨-, hc'⟩
      · rfl
      · exact absurd hi (hold q' c'' hc' i hi')
    · rcases hchain q' c'' hq' with ⟨rfl, rfl⟩ | ⟨-, hc'⟩
      · exact absurd hi' (hold q c' hc i hi)
      · exact h.chains.apart q q' c' c'' i hc hc' hi hi'
  · by_cases hmem : i ∈ c.idxs
    · exact ⟨p, c, by simp [State.goto, Pc.chain], hmem⟩
    · have hfree' : s.free i = false := by
        obtain ⟨n0, n1, n2⟩ := hne i hmem
        simpa [State.format, State.goto, State.taken, n0, n1, n2] using hfree
      obtain ⟨q, c', hq, hic⟩ := h.chains.owned i hi hfree'
      have hqp : q ≠ p := by
        rintro rfl
        rw [hp] at hq
        cases hq
      exact ⟨q, c', by simpa [State.goto, State.format, State.taken, hqp] using hq, hic⟩
  · have hbase : Locks ((s.taken c.idx0 c.idx1 c.idx2).format write c) := h.locks.congr rfl rfl rfl
    refine hbase.goto ?_ ?_ fun q hq => ?_
    · show some c.b = (s.pc p).buf
      rw [hp]
      rfl
    · simp [Pc.inLock]
    · show _ ↔ s.lock = _
      simp [hl, Ne.symm hq]
  · have hpos : ∀ q, (update s.pc p (.ring c) q).posted = (s.pc q).posted :=
      update_same Pc.posted (by rw [hp]; rfl)
    refine h.queues.congr hpos ?_ ?_ ?_ ?_
    · intro q c' hq
      simp only [State.goto, State.format, State.taken, update_apply] at hq
      split at hq
      · cases hq
      · exact hq
    · rintro n head ⟨q, c', hq, rfl⟩ hs
      obtain ⟨n0, -, -⟩ := hne c'.idx0 (hold q c' (Pc.chain_of_posted hq) c'.idx0 c'.idx0_mem)
      simpa [State.format, State.taken, State.goto, n0] using hs
    · intro b' hb'
      simp only [State.format, State.taken, State.goto, update_apply] at hb'
      split at hb'
      · cases hb'
      · exact hb'
    · intro q c' hq
      simp only [State.format, State.taken, State.goto, update_apply] at hq ⊢
      split
      · rfl
      · next hb =>
        split at hq
        · rcases hq with hq | hq
          · injection hq with hq
            exact absurd (congrArg Chain.b hq).symm hb
          · cases hq
        · exact h.queues.fresh q c' hq

theorem Inv.ring (h : Inv s) (hp : s.pc p = .ring c) : Inv { s.goto p (.publish c) with
    availRing := update s.availRing (s.availIdx.toNat % NUM) c.idx0 } := by
  have hroom : s.published.length < s.consumed.length + NUM :=
    h.published_lt (p := p) (c := c) (by rw [hp]; rfl) (by rw [hp]; rfl)
  have hidx : s.availIdx.toNat % NUM = s.published.length % NUM := by
    rw [h.queues.availIdx]
    exact Ring.counter_mod (by decide) _
  have hpos : ∀ q, (update s.pc p (.publish c) q).posted = (s.pc q).posted :=
    update_same Pc.posted (by rw [hp]; rfl)
  have hlocks : Locks { s.goto p (.publish c) with lock := s.lock } := by
    refine h.locks.goto (by rw [hp]; rfl) ?_ fun _ _ => Iff.rfl
    rw [h.locks.lock, hp]
    exact Iff.rfl
  refine ⟨h.chains.congr (update_same Pc.chain (by rw [hp]; rfl)) (fun _ => rfl) (fun _ _ => rfl) fun _ => rfl,
    hlocks.congr rfl rfl rfl, ?_⟩
  have hqs := h.queues
  refine ⟨hqs.availIdx, hqs.lastAvail, hqs.usedRingIdx, hqs.usedIdx, ?_, hqs.used, fun q c' hq => ?_, fun q c' hq => ?_,
    fun q c n hq => hqs.posted q c n ((hpos q).symm.trans hq), fun q c n hq => hqs.done q c n ((hpos q).symm.trans hq),
    fun q q' c c' n hq hq' => hqs.unique q q' c c' n ((hpos q).symm.trans hq) ((hpos q').symm.trans hq'),
    fun n hn hlt => (hqs.unconsumed n hn hlt).congr hpos, fun e he => ⟨(hqs.pending e he).1,
    (hqs.pending e he).2.congr hpos⟩, hqs.completed, fun e he => ⟨(hqs.unprocessed e he).1.congr hpos,
    (hqs.unprocessed e he).2⟩, hqs.nodup⟩
  · dsimp only
    rw [hidx]
    exact hqs.avail.scratch hroom c.idx0
  · have hq' : (update s.pc p (.publish c) q) = .publish c' := hq
    rw [update_apply] at hq'
    split at hq'
    · cases hq'
      refine ⟨?_, hroom⟩
      dsimp only [State.goto]
      rw [hidx, update_self]
    · next hqp =>
      -- two processes inside the lock
      refine absurd (h.locks.inLock_unique ?_ ?_) hqp
      · rw [hq']
        rfl
      · rw [hp]
        rfl
  · simp only [State.goto, update_apply] at hq
    split at hq
    · rcases hq with hq | hq
      · cases hq
      · injection hq with hq
        exact hqs.fresh p c' (.inl (hq ▸ hp))
    · exact hqs.fresh q c' hq

theorem Inv.publish (h : Inv s) (hp : s.pc p = .publish c) : Inv { s.goto p (.wait c s.published.length) with
    availIdx := s.availIdx + 1
    published := s.published ++ [c.idx0] } := by
  obtain ⟨hcell, hroom⟩ := h.queues.ringed p c hp
  have hlocks : Locks { s.goto p (.wait c s.published.length) with lock := s.lock } := by
    refine h.locks.goto (by rw [hp]; rfl) ?_ fun _ _ => Iff.rfl
    rw [h.locks.lock, hp]
    exact Iff.rfl
  refine ⟨h.chains.congr (update_same Pc.chain (by rw [hp]; rfl)) (fun _ => rfl) (fun _ _ => rfl) fun _ => rfl,
    hlocks.congr rfl rfl rfl, ?_⟩
  have hqs := h.queues
  have hpos : ∀ q c' n, (update s.pc p (.wait c s.published.length) q).posted = some (c', n) →
      q = p ∧ c' = c ∧ n = s.published.length ∨ q ≠ p ∧ (s.pc q).posted = some (c', n) := by
    intro q c' n hq
    rw [update_apply] at hq
    split at hq
    · next hqp =>
      cases hq
      exact .inl ⟨hqp, rfl, rfl⟩
    · next hqp => exact .inr ⟨hqp, hq⟩
  have hnone : (s.pc p).posted = none := by rw [hp]; rfl
  have haw : ∀ {n head}, Awaited s n head → Awaited { s.goto p (.wait c s.published.length) with
      availIdx := s.availIdx + 1
      published := s.published ++ [c.idx0] } n head := by
    rintro n head ⟨q, c', hq, hc'⟩
    have hqp : q ≠ p := by
      rintro rfl
      rw [hnone] at hq
      cases hq
    exact ⟨q, c', by simpa [State.goto, hqp] using hq, hc'⟩
  have hlen : (s.published ++ [c.idx0]).length = s.published.length + 1 := by simp
  refine ⟨?_, hqs.lastAvail, hqs.usedRingIdx, hqs.usedIdx, hqs.avail.put_of_cell hroom hcell, hqs.used,
    fun q c' hq => ?_, fun q c' hq => ?_, fun q c' n hq => ?_, fun q c' n hq hb => ?_,
    fun q q' c₁ c₂ n hq hq' => ?_,
    fun n hn hlt => ?_, fun e he => ⟨(hqs.pending e he).1, haw (hqs.pending e he).2⟩, hqs.completed,
    fun e he => ⟨haw (hqs.unprocessed e he).1, (hqs.unprocessed e he).2⟩, hqs.nodup⟩
  · dsimp only
    rw [hlen, hqs.availIdx, Ring.counter_succ]
  · have hq' : (update s.pc p (.wait c s.published.length) q) = .publish c' := hq
    rw [update_apply] at hq'
    split at hq'
    · cases hq'
    · next hqp =>
      refine absurd (h.locks.inLock_unique ?_ ?_) hqp
      · rw [hq']
        rfl
      · rw [hp]
        rfl
  · simp only [State.goto, update_apply] at hq
    split at hq
    · rcases hq with hq | hq <;> cases hq
    · exact hqs.fresh q c' hq
  · dsimp only
    rw [hlen]
    rcases hpos q c' n hq with ⟨-, -, rfl⟩ | ⟨-, hq⟩
    · exact Nat.lt_succ_self _
    · exact Nat.lt_succ_of_lt (hqs.posted q c' n hq)
  · rcases hpos q c' n hq with ⟨-, rfl, -⟩ | ⟨-, hq⟩
    · have hbusy := hqs.fresh p c' (.inr hp)
      rw [show s.busy c'.b = false from hb] at hbusy
      cases hbusy
    · exact hqs.done q c' n hq hb
  · rcases hpos q c₁ n hq with ⟨rfl, -, hn⟩ | ⟨-, hc⟩
    · rcases hpos q' c₂ n hq' with ⟨rfl, -⟩ | ⟨-, hc'⟩
      · rfl
      · have := hqs.posted q' c₂ n hc'
        omega
    · rcases hpos q' c₂ n hq' with ⟨rfl, -, hn⟩ | ⟨-, hc'⟩
      · have := hqs.posted q c₁ n hc
        omega
      · exact hqs.unique q q' c₁ c₂ n hc hc'
  · dsimp only at hlt ⊢
    by_cases hn' : n < s.published.length
    · rw [List.getElem_append_left hn']
      exact haw (hqs.unconsumed n hn hn')
    · have hne : n = s.published.length := by
        rw [hlen] at hlt
        omega
      subst hne
      rw [List.getElem_concat_length rfl]
      exact ⟨p, c, by simp [State.goto, Pc.posted], rfl⟩

theorem Inv.turn {lock : Option (Holder P)} (h : Inv s) (hp : (s.pc p).posted = some (c, n))
    (hpc : pc.posted = some (c, n)) (hl : lock = some (.proc p) ↔ pc.inLock = true)
    (hother : ∀ q, q ≠ p → (lock = some (.proc q) ↔ s.lock = some (.proc q))) : Inv { s.goto p pc with lock } := by
  have hchain : pc.chain = (s.pc p).chain := (Pc.chain_of_posted hpc).trans (Pc.chain_of_posted hp).symm
  have hbuf : pc.buf = (s.pc p).buf :=
    (Pc.buf_of_chain (Pc.chain_of_posted hpc)).trans (Pc.buf_of_chain (Pc.chain_of_posted hp)).symm
  have hnot : ∀ c', ¬(pc = .ring c' ∨ pc = .publish c') := by
    rintro c' (rfl | rfl) <;> cases hpc
  have hpos : ∀ q, (update s.pc p pc q).posted = (s.pc q).posted :=
    update_same Pc.posted (hpc.trans hp.symm)
  refine ⟨h.chains.congr (update_same Pc.chain hchain) (fun _ => rfl) (fun _ _ => rfl) fun _ => rfl,
    h.locks.goto hbuf hl hother, h.queues.congr hpos ?_ (fun _ _ _ => id) (fun _ => id) ?_⟩
  · intro q c' hq
    simp only [State.goto, update_apply] at hq
    split at hq
    · exact absurd (.inr hq) (hnot c')
    · exact hq
  · intro q c' hq
    simp only [State.goto, update_apply] at hq
    split at hq
    · exact absurd hq (hnot c')
    · exact h.queues.fresh q c' hq

theorem Inv.finish [DecidableEq B] (h : Inv s) (hp : s.pc p = .wait c n) (hb : s.busy c.b = false) :
    ∃ s', finish s p c = .next s' ∧ Inv s' := by
  have hchain : (s.pc p).chain = some c := by rw [hp]; rfl
  have hposted : (s.pc p).posted = some (c, n) := by rw [hp]; rfl
  have hlock : s.lock = some (.proc p) := (h.locks.lock p).mpr (by rw [hp]; rfl)
  have hform := h.chains.formed p c hchain
  have hfree := Wired.freeChain (s := { s with
    info := update s.info c.idx0 { s.info c.idx0 with b := none } }) hform.toWired
  refine ⟨_, by rw [VirtioDisk.finish, hfree]; rfl, ?_⟩
  have hold : ∀ {X : Type} (g : Pc B → Option X), g .out = none → ∀ q x,
      g (update s.pc p .out q) = some x → q ≠ p ∧ g (s.pc q) = some x := by
    intro X g hg q x hq
    rw [update_apply] at hq
    split at hq
    · rw [hg] at hq
      cases hq
    · next hqp => exact ⟨hqp, hq⟩
  have hne : ∀ i, i ∉ c.idxs → i ≠ c.idx0 ∧ i ≠ c.idx1 ∧ i ≠ c.idx2 := by
    intro i hi
    simpa [Chain.idxs] using hi
  have hapart : ∀ q c', q ≠ p → (s.pc q).chain = some c' → ∀ i ∈ c'.idxs, i ∉ c.idxs :=
    fun q c' hqp hq i hi hic => hqp (h.chains.apart q p c' c i hq hchain hi hic)
  obtain ⟨hcons, hpend, hcomp⟩ := h.not_tracked hposted hb
  have haw : ∀ {m head}, m ≠ n → Awaited s m head → ∃ q c', (update s.pc p .out q).posted = some (c', m) ∧
      c'.idx0 = head := by
    rintro m head hmn ⟨q, c', hq, hc'⟩
    have hqp : q ≠ p := by
      rintro rfl
      rw [hposted] at hq
      cases hq
      exact hmn rfl
    exact ⟨q, c', by rwa [update_of_ne hqp], hc'⟩
  refine ⟨⟨fun q c' hq => ?_, fun q q' c₁ c₂ i hq hq' hi hi' => ?_, fun i hi hfree => ?_⟩,
    ⟨fun q => ?_, fun q b hq => ?_⟩, ?_⟩
  · obtain ⟨hqp, hq⟩ := hold Pc.chain rfl q c' hq
    refine (h.chains.formed q c' hq).congr (fun i hi => ?_) (fun i hi => ?_) ?_
    · obtain ⟨n0, n1, n2⟩ := hne i (hapart q c' hqp hq i hi)
      simp [State.freed, State.goto, n0, n1, n2]
    · obtain ⟨n0, n1, n2⟩ := hne i (hapart q c' hqp hq i hi)
      simp [State.freed, State.goto, n0, n1, n2]
    · obtain ⟨n0, -, -⟩ := hne c'.idx0 (hapart q c' hqp hq _ c'.idx0_mem)
      simp [State.freed, State.goto, n0]
  · exact h.chains.apart q q' c₁ c₂ i (hold Pc.chain rfl q c₁ hq).2 (hold Pc.chain rfl q' c₂ hq').2 hi hi'
  · have hmem : i ∉ c.idxs := by
      intro hic
      have hi' : i = c.idx0 ∨ i = c.idx1 ∨ i = c.idx2 := by simpa [Chain.idxs] using hic
      rcases hi' with rfl | rfl | rfl <;> simp [State.freed, State.goto, update_apply] at hfree
    obtain ⟨n0, n1, n2⟩ := hne i hmem
    have hfree' : s.free i = false := by simpa [State.freed, State.goto, n0, n1, n2] using hfree
    obtain ⟨q, c', hq, hic⟩ := h.chains.owned i hi hfree'
    have hqp : q ≠ p := by
      rintro rfl
      rw [hchain] at hq
      cases hq
      exact hmem hic
    exact ⟨q, c', by simpa [State.freed, State.goto, hqp] using hq, hic⟩
  · have hq : q ≠ p → (s.pc q).inLock = false := by
      intro hqp
      by_contra hin
      exact hqp (h.locks.inLock_unique (by simpa using hin) (by rw [hp]; rfl))
    simp only [State.goto, State.freed, update_apply, reduceCtorEq, false_iff]
    split
    · simp [Pc.inLock]
    · next hqp => simp [hq hqp]
  · obtain ⟨hqp, hq⟩ := hold Pc.buf rfl q b hq
    have hheld := h.locks.held q b hq
    have hbc : b ≠ c.b := by
      rintro rfl
      exact hqp (h.locks.buf_unique hq (Pc.buf_of_chain hchain))
    simpa [State.goto, State.freed, hbc] using hheld
  · have hqs := h.queues
    have hpos := fun q x hq => (hold Pc.posted rfl q x hq).2
    refine ⟨hqs.availIdx, hqs.lastAvail, hqs.usedRingIdx, hqs.usedIdx, hqs.avail, hqs.used, fun q c' hq => ?_,
      fun q c' hq => ?_, fun q c' m hq => hqs.posted q c' m (hpos q _ hq),
      fun q c' m hq => hqs.done q c' m (hpos q _ hq),
      fun q q' c₁ c₂ m hq hq' => hqs.unique q q' c₁ c₂ m (hpos q _ hq) (hpos q' _ hq'), fun m hm hlt => ?_,
      fun e he => ⟨(hqs.pending e he).1, haw (hpend e he) (hqs.pending e he).2⟩, hqs.completed, fun e he => ?_,
      hqs.nodup⟩
    · simp only [State.goto, State.freed, update_apply] at hq
      split at hq
      · cases hq
      · exact hqs.ringed q c' hq
    · simp only [State.goto, State.freed, update_apply] at hq
      split at hq
      · rcases hq with hq | hq <;> cases hq
      · exact hqs.fresh q c' hq
    · have hm' : s.consumed.length ≤ m := hm
      exact haw (by omega) (hqs.unconsumed m hm hlt)
    · obtain ⟨ha, hs⟩ := hqs.unprocessed e he
      refine ⟨haw (hcomp e he) ha, ?_⟩
      by_cases hei : e.2 = c.idx0
      · simpa [State.goto, State.freed, hei] using hei ▸ hs
      · simpa [State.goto, State.freed, hei] using hs

theorem Inv.start [DecidableEq B] {write : Bool} (h : Inv s) (hp : s.pc p = .start b write) (hl : s.lock = none) :
    ∃ s', start s p b write = .next s' ∧ Inv s' := by
  unfold VirtioDisk.start
  rw [if_pos hl]
  cases alloc3Desc_cases s with
  | got i0 i1 i2 nodup lt free eq =>
    rw [eq]
    exact ⟨_, rfl, h.start_got (c := ⟨b, i0, i1, i2⟩) hp hl nodup lt free⟩
  | none desc same eq =>
    rw [eq]
    exact ⟨_, rfl, h.chains.congr (fun _ => rfl) (fun _ => rfl) same fun _ => rfl, h.locks.congr rfl rfl rfl,
      h.queues.congr (fun _ => rfl) (fun _ _ => id) (fun _ _ _ => id) (fun _ => id) h.queues.fresh⟩

/-- No action stops the machine, and each one keeps the invariant. -/
theorem Inv.step [DecidableEq B] (h : Inv s) (e : Action P B) :
    VirtioDisk.step s e = .disabled ∨ ∃ s', VirtioDisk.step s e = .next s' ∧ Inv s' := by
  cases e with
  | call p b write =>
    simp only [VirtioDisk.step]
    split
    · next hp =>
      split
      · next hb => exact .inr ⟨_, rfl, h.call hp hb⟩
      · exact .inl rfl
    · exact .inl rfl
  | go p =>
    simp only [VirtioDisk.step]
    split
    · exact .inl rfl
    · next b write hp =>
      by_cases hl : s.lock = none
      · exact .inr (h.start hp hl)
      · rw [VirtioDisk.start, if_neg hl]
        exact .inl rfl
    · next c hp => exact .inr ⟨_, rfl, h.ring hp⟩
    · next c hp => exact .inr ⟨_, rfl, h.publish hp⟩
    · next c n hp =>
      have hlock : s.lock = some (.proc p) := (h.locks.lock p).mpr (by rw [hp]; rfl)
      split
      · refine .inr ⟨_, rfl, h.turn (c := c) (n := n) (by rw [hp]; rfl) rfl (by simp [Pc.inLock]) fun q hq => ?_⟩
        simp [hlock, Ne.symm hq]
      · next hb => exact .inr (h.finish hp (by simpa using hb))
    · next c n hp =>
      split
      · next hl =>
        refine .inr ⟨_, rfl, h.turn (c := c) (n := n) (by rw [hp]; rfl) rfl (by simp [Pc.inLock]) fun q hq => ?_⟩
        simp [hl, Ne.symm hq]
      · exact .inl rfl
  | intr =>
    simp only [VirtioDisk.step]
    split
    · next hl =>
      refine .inr ⟨_, rfl, h.setLock (fun p hp => ?_) fun p hp => by cases hp⟩
      rw [hl] at hp
      cases hp
    · exact .inl rfl
  | intrGo =>
    simp only [VirtioDisk.step]
    split
    · next hl => exact .inr (h.intrTurn hl)
    · exact .inl rfl
  | consume =>
    simp only [VirtioDisk.step, VirtioDisk.consume]
    split
    · next hne => exact .inr ⟨_, rfl, h.consume hne⟩
    · exact .inl rfl
  | complete k =>
    simp only [VirtioDisk.step]
    cases hk : s.pending[k]? with
    | none =>
      rw [VirtioDisk.complete, hk]
      exact .inl rfl
    | some e => exact .inr (h.complete hk)

theorem run_inv [DecidableEq B] {blockno : B → BitVec 32} {es : List (Action P B)}
    (h : Run step anyAction (init blockno) es s) :
    Inv s := by
  refine h.stateInvariant ?_ ?_
  · exact init_inv blockno
  · intro s e s' hi _ hst
    rcases hi.step e with hd | ⟨s'', hs, hi'⟩
    · rw [hd] at hst
      cases hst
    · rw [hs] at hst
      cases hst
      exact hi'

end Steps

/-! ## Whole runs -/

section
variable {P B : Type}

/-- A descriptor in use belongs to one request; the descriptors of a request are in use and linked in order. -/
structure Partition (s : State P B) : Prop where
  free_or_owned : ∀ i < NUM, (s.free i = true ∧ ∀ p c, (s.pc p).chain = some c → i ∉ c.idxs) ∨
    (s.free i = false ∧ ∃! p, ∃ c, (s.pc p).chain = some c ∧ i ∈ c.idxs)
  three : ∀ p c, (s.pc p).chain = some c → c.idxs.Nodup ∧ (∀ i ∈ c.idxs, i < NUM) ∧
    (s.desc c.idx0).next = c.idx1 ∧ (s.desc c.idx1).next = c.idx2

theorem Inv.partition {s : State P B} (h : Inv s) : Partition s := by
  refine ⟨fun i hi => ?_, fun p c hp => ?_⟩
  · cases hf : s.free i with
    | true =>
      refine .inl ⟨rfl, fun p c hp hic => ?_⟩
      have := (h.chains.formed p c hp).used i hic
      rw [hf] at this
      cases this
    | false =>
      obtain ⟨p, c, hp, hic⟩ := h.chains.owned i hi hf
      refine .inr ⟨rfl, p, ⟨c, hp, hic⟩, ?_⟩
      rintro q ⟨c', hq, hic'⟩
      exact h.chains.apart q p c' c i hq hp hic' hic
  · have hform := h.chains.formed p c hp
    exact ⟨hform.nodup, hform.lt, hform.next0, hform.next1⟩

/-- Descriptors have one owner; a request is done only when the device has completed it; nothing panics and no null
buffer is used; a process that finds its request done gets to the end; and a slot of the avail ring is written only
when the device has taken what was there. -/
theorem run_protocol [DecidableEq P] [DecidableEq B] (blockno : B → BitVec 32) (es : List (Action P B)) (s : State P B)
    (h : Run step anyAction (init blockno) es s) :
    Partition s ∧
    (∀ p c n, (s.pc p).posted = some (c, n) → s.busy c.b = false → n ∈ s.completed.map (·.1)) ∧
    (∀ e msg, step s e ≠ .panic msg) ∧
    (∀ p c n, s.pc p = .wait c n → ∃ s', step s (.go p) = .next s') ∧
    (∀ p c, s.pc p = .ring c → ∀ k < (s.availIdx - s.lastAvail).toNat,
      (s.lastAvail + BitVec.ofNat 16 k).toNat % NUM ≠ s.availIdx.toNat % NUM) := by
  have hi := run_inv h
  refine ⟨hi.partition, fun p c n hp hb => ?_, fun e msg hst => ?_, fun p c n hp => ?_, fun p c hp k hk => ?_⟩
  · obtain ⟨e, he, rfl⟩ := List.mem_map.mp (hi.queues.done p c n hp hb)
    exact List.mem_map_of_mem (List.mem_of_mem_take he)
  · rcases hi.step e with hd | ⟨s', hs, -⟩
    · rw [hd] at hst
      cases hst
    · rw [hs] at hst
      cases hst
  · rw [step, hp]
    dsimp only
    split
    · exact ⟨_, rfl⟩
    · next hb =>
      obtain ⟨s', hs, -⟩ := hi.finish hp (by simpa using hb)
      exact ⟨s', hs⟩
  · have hroom : s.published.length < s.consumed.length + NUM :=
      hi.published_lt (p := p) (c := c) (by rw [hp]; rfl) (by rw [hp]; rfl)
    have hle := hi.queues.avail.length_le
    rw [hi.queues.availIdx, hi.queues.lastAvail, Ring.counter_sub hle (by unfold NUM at hroom; omega)] at hk
    rw [hi.queues.availIdx, hi.queues.lastAvail, ← BitVec.ofNat_add, Ring.counter_mod (by decide),
      Ring.counter_mod (by decide)]
    exact Ring.mod_ne_of_window (by omega) (by omega)

end

def oneRequest : List (Action Unit Unit) :=
  [.call () () true, .go (), .go (), .go (), .go (), .consume, .complete 0, .intr, .intrGo, .intrGo, .go ()]

theorem oneRequest_runs : (exec step oneRequest (init fun _ => 5)).check (fun s => !s.busy () &&
    (s.pc ()).posted.any fun r => r.2 == 0) = true := by
  decide +kernel

theorem oneRequest_completed : ∃ s c, exec step oneRequest (init fun _ => 5) = .next s ∧
    (s.pc ()).posted = some (c, 0) ∧ s.busy c.b = false ∧ 0 ∈ s.completed.map (·.1) := by
  obtain ⟨s, hs, hcheck⟩ := exists_of_check _ _ _ _ oneRequest_runs
  rw [Bool.and_eq_true, Bool.not_eq_true', Option.any_eq_true] at hcheck
  obtain ⟨hb, ⟨c, n⟩, hp, hn⟩ := hcheck
  obtain rfl : n = 0 := by simpa using hn
  have hrun := Run.of_exec (admitted_anyAction _ _) hs
  exact ⟨s, c, hs, hp, hb, (run_protocol _ oneRequest s hrun).2.1 () c 0 hp hb⟩

end Xv6Boot.Kernel.VirtioDisk
