import Xv6Boot.Bootloader.Sha256C

/-! # What `sha256.c` computes

Layer over `Sha256C`: `sha256_transform` is one compression of the reference function, and a run of
`sha256_update` absorbs the bytes it is given in any split. Each function also has a frame lemma, which
asks only that the buffer position is in range: outside the context memory is untouched.
-/

namespace Xv6Boot.Sha256C
open Function ByteMemory Loop StringC Layout
open Sha256 (Work Word)

/-! ## The macros -/

theorem ROTRIGHT_eq (x : Word) {n : ℕ} (h : n < 32) : ROTRIGHT x n = Sha256.rotr n x := by
  simp [ROTRIGHT, Sha256.rotr, BitVec.rotateRight, BitVec.rotateRightAux, Nat.mod_eq_of_lt h]

theorem EP0_eq (x : Word) : EP0 x = Sha256.bigSigma0 x := by simp [EP0, Sha256.bigSigma0, ROTRIGHT_eq]
theorem EP1_eq (x : Word) : EP1 x = Sha256.bigSigma1 x := by simp [EP1, Sha256.bigSigma1, ROTRIGHT_eq]
theorem SIG0_eq (x : Word) : SIG0 x = Sha256.smallSigma0 x := by
  simp [SIG0, Sha256.smallSigma0, ROTRIGHT_eq]
theorem SIG1_eq (x : Word) : SIG1 x = Sha256.smallSigma1 x := by
  simp [SIG1, Sha256.smallSigma1, ROTRIGHT_eq]

theorem roundBody_eq (ki mi : Word) (v : Work) : roundBody ki mi v = Sha256.round ki mi v := by
  simp only [roundBody, Sha256.round, EP0_eq, EP1_eq]
  rfl

theorem shift_or_eq_append (a b c d : Byte) :
    (a.setWidth 32 <<< 24) ||| (b.setWidth 32 <<< 16) ||| (c.setWidth 32 <<< 8) ||| d.setWidth 32 =
      a ++ b ++ c ++ d := by
  apply BitVec.eq_of_getLsbD_eq
  intro i hi
  have hhi : ∀ (x : Byte) (j : ℕ), 8 ≤ j → x.getLsbD j = false :=
    fun x j hj => BitVec.getLsbD_of_ge x j hj
  simp only [BitVec.getLsbD_or, BitVec.getLsbD_shiftLeft, BitVec.getLsbD_setWidth, BitVec.getLsbD_append]
  by_cases h1 : i < 8
  · simp [h1, hi, show i < 16 by omega, show i < 24 by omega]
  · by_cases h2 : i < 16
    · simp [h1, hi, h2, show i < 24 by omega, show i - 8 < 8 by omega, show i - 8 < 32 by omega,
        hhi d i (by omega)]
    · by_cases h3 : i < 24
      · simp [h1, hi, h2, h3, show ¬ i - 8 < 8 by omega, Nat.sub_sub, show i - 16 < 8 by omega,
          show i - 16 < 32 by omega, hhi d i (by omega), hhi c (i - 8) (by omega)]
      · simp [h1, hi, h2, h3, show ¬ i - 8 < 8 by omega, show ¬ i - 16 < 8 by omega, Nat.sub_sub,
          show i - 24 < 8 by omega, show i - 24 < 32 by omega, hhi d i (by omega),
          hhi c (i - 8) (by omega), hhi b (i - 16) (by omega)]

/-! ## `sha256_transform` -/

/-- The words of the 64 bytes at `data`, as the reference function reads them. -/
def block (m : Mem) (data : Addr) : ℕ → Word := Sha256.blockWord (fun i => m (off data i)) 0

theorem messageWord_eq (m : Mem) (data : Addr) (i : ℕ) : messageWord m data (4 * i) = block m data i := by
  rw [messageWord, shift_or_eq_append]
  simp only [block, Sha256.blockWord, Sha256.word, Nat.zero_add]

theorem messageArray_eq (m : Mem) (data : Addr) {t : ℕ} (ht : t < 64) :
    messageArray m data t = Sha256.schedule (block m data) t := by
  unfold messageArray
  have h1 := forLoop_induct (fun i w => update w i (messageWord m data (4 * i)))
    (fun i w => ∀ t < i, w t = Sha256.schedule (block m data) t) 0 16 (fun _ => 0#32)
    (fun t ht => absurd ht (Nat.not_lt_zero t)) (by
      intro i w _ hi hw t ht
      by_cases he : t = i
      · subst he
        rw [update_self, messageWord_eq, Sha256.schedule_of_lt _ (by omega)]
      · rw [update_of_ne he]
        exact hw t (by omega))
  have h2 := forLoop_induct (fun i w => update w i
      (SIG1 (w (i - 2)) + w (i - 7) + SIG0 (w (i - 15)) + w (i - 16)))
    (fun i w => ∀ t < i, w t = Sha256.schedule (block m data) t) 16 48 _ h1 (by
      intro i w hl hi hw t ht
      by_cases he : t = i
      · subst he
        rw [update_self, Sha256.schedule_of_le _ hl, SIG0_eq, SIG1_eq, hw (t - 2) (by omega),
          hw (t - 7) (by omega), hw (t - 15) (by omega), hw (t - 16) (by omega)]
      · rw [update_of_ne he]
        exact hw t (by omega))
  exact h2 t ht

variable {j b r : ℕ} {m m' : Mem} {p : List Byte} {s : Set Addr}

theorem loadState_get (m : Mem) (ctx : Addr) (hj : j < 8) : (loadState m ctx).get j = load 32 m (stateAddr ctx j) := by
  interval_cases j <;> rfl

theorem load_store_state (m : Mem) (ctx : Addr) (j : ℕ) (v : Word) :
    load 32 (store m (stateAddr ctx j) v) (stateAddr ctx j) = v :=
  load_store32 m _ v

theorem load_store_state_ne (m : Mem) (ctx : Addr) {l : ℕ} (hj : j < 8) (hl : l < 8) (h : l ≠ j) (v : Word) :
    load 32 (store m (stateAddr ctx j) v) (stateAddr ctx l) = load 32 m (stateAddr ctx l) :=
  (store32_frame m (stateAddr ctx j) v).load_off (by simp only [Ctx.state]; omega)
    (by simp only [Ctx.state]; omega) (by simp only [Ctx.state]; omega)

theorem store_state_frame (m : Mem) (ctx : Addr) (hj : j < 8) (v : Word) :
    Frame (span (off ctx Ctx.state) 32) m (store m (stateAddr ctx j) v) := by
  apply (store32_frame m (stateAddr ctx j) v).mono
  rw [stateAddr, ← off_off]
  exact span_off_subset _ (by omega) (by norm_num)

theorem stateLoop (m : Mem) (ctx : Addr) (f : ℕ → Word → Word) :
    let m' := forLoop (fun j m => store m (stateAddr ctx j) (f j (load 32 m (stateAddr ctx j)))) 0 8 m
    Frame (span (off ctx Ctx.state) 32) m m' ∧
      ∀ j < 8, load 32 m' (stateAddr ctx j) = f j (load 32 m (stateAddr ctx j)) := by
  have h := forLoop_induct
    (fun j m => store m (stateAddr ctx j) (f j (load 32 m (stateAddr ctx j))))
    (fun i m' => Frame (span (off ctx Ctx.state) 32) m m' ∧ ∀ j < 8, load 32 m' (stateAddr ctx j) =
      if j < i then f j (load 32 m (stateAddr ctx j)) else load 32 m (stateAddr ctx j)) 0 8 m
    ⟨Frame.refl _ _, by simp⟩ (by
      rintro i m' _ hi ⟨hf, hv⟩
      refine ⟨hf.trans (store_state_frame m' ctx (by omega) _), ?_⟩
      intro j hj
      by_cases he : j = i
      · subst he
        rw [load_store_state, hv j hj, if_neg (by omega), if_pos (by omega)]
      · rw [load_store_state_ne _ _ (by omega) hj he, hv j hj]
        by_cases hlt : j < i
        · rw [if_pos hlt, if_pos (by omega)]
        · rw [if_neg hlt, if_neg (by omega)])
  refine ⟨h.1, fun j hj => ?_⟩
  rw [h.2 j hj, if_pos (by omega)]

theorem k_eq : k = Sha256.constants := rfl

theorem sha256Transform_frame (m : Mem) (ctx data : Addr) :
    Frame (span (off ctx Ctx.state) 32) m (sha256Transform m ctx data) := by
  unfold sha256Transform
  dsimp only
  exact (stateLoop m ctx fun j x => x + (forLoop _ 0 64 (loadState m ctx)).get j).1

theorem sha256Transform_spec (m : Mem) (ctx data : Addr) (hk : KLoaded m) (hj : j < 8) :
    load 32 (sha256Transform m ctx data) (stateAddr ctx j) =
      (Sha256.compress (loadState m ctx) (block m data)).get j := by
  have hr := forLoop_induct
    (fun i v => roundBody (load 32 m (off kTable (4 * i))) (messageArray m data i) v)
    (fun i v => v = Sha256.rounds (Sha256.schedule (block m data)) (loadState m ctx) i) 0 64
    (loadState m ctx) rfl (by
      intro i v _ hi hv
      rw [roundBody_eq, hv, hk i (by omega), messageArray_eq m data (by omega), k_eq]
      rfl)
  unfold sha256Transform
  dsimp only
  rw [hr]
  have hv := (stateLoop m ctx fun j x =>
    x + (Sha256.rounds (Sha256.schedule (block m data)) (loadState m ctx) (0 + 64)).get j).2
  rw [hv j hj, Sha256.compress, Work.add_get _ _ hj, loadState_get m ctx hj]

/-! ## The context as a prefix of the message -/

/-- The context at `ctx` has taken in the bytes `p`: `b` blocks are in the state, `r` bytes in the
buffer. -/
structure Holding (m : Mem) (ctx : Addr) (p : List Byte) (b r : ℕ) : Prop where
  length_eq : p.length = 64 * b + r
  datalen_eq : datalen m ctx = BitVec.ofNat 32 r
  bitlen_eq : bitlen m ctx = BitVec.ofNat 64 (512 * b)
  state_eq : ∀ j < 8, load 32 m (stateAddr ctx j) = (Sha256.chain p b).get j
  data_eq : ∀ i < r, m (off ctx i) = p.getD (64 * b + i) 0

def Absorbed (m : Mem) (ctx : Addr) (p : List Byte) : Prop :=
  Holding m ctx p (p.length / 64) (p.length % 64)

variable {ctx : Addr}

theorem Holding.absorbed (h : Holding m ctx p b r) (hr : r < 64) : Absorbed m ctx p := by
  have hl := h.length_eq
  unfold Absorbed
  rw [show p.length / 64 = b by omega, show p.length % 64 = r by omega]
  exact h

theorem state_subset (ctx : Addr) : span (off ctx Ctx.state) 32 ⊆ span ctx Ctx.size :=
  span_off_subset ctx (by decide) (by decide)

theorem datalen_subset (ctx : Addr) : span (off ctx Ctx.datalen) 4 ⊆ span ctx Ctx.size :=
  span_off_subset ctx (by decide) (by decide)

theorem bitlen_subset (ctx : Addr) : span (off ctx Ctx.bitlen) 8 ⊆ span ctx Ctx.size :=
  span_off_subset ctx (by decide) (by decide)

theorem KLoaded.frame (hk : KLoaded m) (hf : Frame s m m') (hd : Disjoint (span kTable 256) s) : KLoaded m' := by
  intro i hi
  rw [← hk i hi]
  apply hf.load_eq _ (by norm_num)
  exact hd.mono_left (span_off_subset kTable (by omega) (by norm_num))

theorem Holding.frame (h : Holding m ctx p b r) (hr : r ≤ 64) (hf : Frame s m m')
    (hd : Disjoint (span ctx Ctx.size) s) :
    Holding m' ctx p b r where
  length_eq := h.length_eq
  datalen_eq := by
    rw [← h.datalen_eq]
    exact hf.load_eq (hd.mono_left (datalen_subset ctx)) (by norm_num)
  bitlen_eq := by
    rw [← h.bitlen_eq]
    exact hf.load_eq (hd.mono_left (bitlen_subset ctx)) (by norm_num)
  state_eq := by
    intro j hj
    rw [← h.state_eq j hj]
    apply hf.load_eq _ (by norm_num)
    exact hd.mono_left (span_off_subset ctx (by simp only [Ctx.state, Ctx.size]; omega) (by decide))
  data_eq := by
    intro i hi
    rw [← h.data_eq i hi]
    exact hf.byte hd (by simp only [Ctx.size]; omega) (by omega)

theorem Absorbed.frame (h : Absorbed m ctx p) (hf : Frame s m m') (hd : Disjoint (span ctx Ctx.size) s) :
    Absorbed m' ctx p :=
  Holding.frame h (by omega) hf hd

theorem Holding.datalen_toNat (h : Holding m ctx p b r) (hr : r ≤ 64) : (datalen m ctx).toNat = r := by
  rw [h.datalen_eq, BitVec.toNat_ofNat]
  omega

theorem loadState_eq {v : Work} (h : ∀ j < 8, load 32 m (stateAddr ctx j) = v.get j) :
    loadState m ctx = v :=
  Work.ext_get fun j hj => by rw [loadState_get m ctx hj, h j hj]

theorem transform_chain (m : Mem) (ctx : Addr) (P : List Byte) (b : ℕ) (hk : KLoaded m)
    (hs : ∀ j < 8, load 32 m (stateAddr ctx j) = (Sha256.chain P b).get j)
    (hb : ∀ i < 64, m (off ctx i) = P.getD (64 * b + i) 0) :
    ∀ j < 8, load 32 (sha256Transform m ctx (off ctx Ctx.data)) (stateAddr ctx j) =
      (Sha256.chain P (b + 1)).get j := by
  intro j hj
  have hblock : Sha256.compress (loadState m ctx) (block m (off ctx Ctx.data)) =
      Sha256.chain P (b + 1) := by
    rw [loadState_eq hs, Sha256.chain]
    apply Sha256.compress_congr
    intro t ht
    apply Sha256.blockWord_congr _ ht
    intro l hl
    rw [Nat.zero_add, off_off]
    simpa only [Ctx.data, Nat.zero_add] using hb l hl
  rw [sha256Transform_spec m ctx _ hk hj, hblock]

/-! ## `sha256_init` -/

theorem sha256Init_spec (m : Mem) (ctx : Addr) :
    Frame (span ctx Ctx.size) m (sha256Init m ctx) ∧ Absorbed (sha256Init m ctx) ctx [] := by
  set m1 := store m (off ctx Ctx.datalen) 0#32 with h1
  set m2 := store m1 (off ctx Ctx.bitlen) 0#64 with h2
  obtain ⟨hf, hv⟩ := stateLoop m2 ctx fun j _ => initialState.getD j 0
  have f1 : Frame (span (off ctx Ctx.datalen) 4) m m1 := store32_frame m _ _
  have f2 : Frame (span (off ctx Ctx.bitlen) 8) m1 m2 := store64_frame m1 _ _
  refine ⟨?_, ⟨rfl, ?_, ?_, ?_, ?_⟩⟩
  · exact ((f1.mono (datalen_subset ctx)).trans (f2.mono (bitlen_subset ctx))).trans
      (hf.mono (state_subset ctx))
  · calc datalen _ ctx = datalen m2 ctx := hf.load_off (by decide) (by decide) (by decide)
      _ = datalen m1 ctx := f2.load_off (by decide) (by decide) (by decide)
      _ = 0#32 := load_store32 m _ _
  · calc bitlen _ ctx = bitlen m2 ctx := hf.load_off (by decide) (by decide) (by decide)
      _ = 0#64 := load_store64 m1 _ _
  · intro j hj
    refine (hv j hj).trans ?_
    interval_cases j <;> rfl
  · intro i hi
    simp at hi

/-! ## `sha256_update` -/

def InBuffer (m : Mem) (ctx : Addr) : Prop := (datalen m ctx).toNat < 64

theorem Absorbed.inBuffer (h : Absorbed m ctx p) : InBuffer m ctx := by
  unfold InBuffer
  rw [Holding.datalen_toNat h (by omega)]
  omega

theorem InBuffer.frame (h : InBuffer m ctx) (hf : Frame s m m') (hd : Disjoint (span ctx Ctx.size) s) :
    InBuffer m' ctx := by
  unfold InBuffer datalen
  rw [hf.load_eq (hd.mono_left (datalen_subset ctx)) (by norm_num)]
  exact h

theorem bufferByte_frame (h : InBuffer m ctx) (data : Addr) (i : ℕ) :
    Frame (span ctx Ctx.size) m (bufferByte ctx data i m) ∧
      datalen (bufferByte ctx data i m) ctx = datalen m ctx + 1 := by
  unfold InBuffer at h
  unfold bufferByte
  dsimp only
  set r := (datalen m ctx).toNat with hr
  set m1 : Mem := update m (off ctx (Ctx.data + r)) (m (off data i)) with h1
  have f1 : Frame (span (off ctx (Ctx.data + r)) 1) m m1 := update_frame m _ _
  refine ⟨(f1.mono ?_).trans ((store32_frame m1 _ _).mono (datalen_subset ctx)), ?_⟩
  · exact span_off_subset ctx (by simp only [Ctx.data, Ctx.size]; omega) (by decide)
  · have e : datalen m1 ctx = datalen m ctx :=
      f1.load_off (.inl (by simp only [Ctx.data, Ctx.datalen]; omega))
        (by simp only [Ctx.data]; omega) (by decide)
    rw [← e]
    exact load_store32 m1 _ _

theorem flushBlock_frame (m : Mem) (ctx : Addr) : Frame (span ctx Ctx.size) m (flushBlock ctx m) ∧
    datalen (flushBlock ctx m) ctx = 0 := by
  unfold flushBlock
  dsimp only
  set m1 := sha256Transform m ctx (off ctx Ctx.data) with h1
  have f1 : Frame (span (off ctx Ctx.state) 32) m m1 := sha256Transform_frame m ctx _
  set m2 := store m1 (off ctx Ctx.bitlen) (bitlen m1 ctx + 512) with h2
  have f2 : Frame (span (off ctx Ctx.bitlen) 8) m1 m2 := store64_frame m1 _ _
  refine ⟨?_, load_store32 m2 _ _⟩
  exact ((f1.mono (state_subset ctx)).trans (f2.mono (bitlen_subset ctx))).trans
    ((store32_frame m2 _ _).mono (datalen_subset ctx))

theorem updateByte_frame (h : InBuffer m ctx) (data : Addr) (i : ℕ) :
    Frame (span ctx Ctx.size) m (updateByte ctx data i m) ∧ InBuffer (updateByte ctx data i m) ctx := by
  obtain ⟨f1, h1⟩ := bufferByte_frame h data i
  unfold updateByte
  dsimp only
  by_cases hfull : datalen (bufferByte ctx data i m) ctx = 64
  · rw [if_pos hfull]
    obtain ⟨f2, h2⟩ := flushBlock_frame (bufferByte ctx data i m) ctx
    refine ⟨f1.trans f2, ?_⟩
    unfold InBuffer
    rw [h2]
    decide
  · rw [if_neg hfull]
    refine ⟨f1, ?_⟩
    unfold InBuffer at h ⊢
    rw [h1] at hfull ⊢
    bv_omega

theorem sha256Update_frame (h : InBuffer m ctx) (data : Addr) (len : ℕ) :
    Frame (span ctx Ctx.size) m (sha256Update m ctx data len) ∧
      InBuffer (sha256Update m ctx data len) ctx :=
  forLoop_induct (updateByte ctx data)
    (fun _ m' => Frame (span ctx Ctx.size) m m' ∧ InBuffer m' ctx) 0 len m ⟨Frame.refl _ _, h⟩
    (by
      rintro i m' _ _ ⟨hf, hb⟩
      obtain ⟨hf', hb'⟩ := updateByte_frame hb data i
      exact ⟨hf.trans hf', hb'⟩)

theorem bufferByte_spec (h : Holding m ctx p b r) (hr : r < 64) (data : Addr) (i : ℕ) :
    Holding (bufferByte ctx data i m) ctx (p ++ [m (off data i)]) b (r + 1) := by
  set c := m (off data i) with hc
  set m1 : Mem := update m (off ctx (Ctx.data + r)) c with h1
  have hdef : bufferByte ctx data i m = store m1 (off ctx Ctx.datalen) (datalen m1 ctx + 1) := by
    unfold bufferByte
    dsimp only
    rw [h.datalen_toNat (by omega)]
  have hlen := (bufferByte_frame (show InBuffer m ctx by
    unfold InBuffer
    rw [h.datalen_toNat (by omega)]
    exact hr) data i).2
  rw [hdef] at hlen ⊢
  set m2 := store m1 (off ctx Ctx.datalen) (datalen m1 ctx + 1) with h2
  have hl := h.length_eq
  have f1 : Frame (span (off ctx (Ctx.data + r)) 1) m m1 := update_frame m _ c
  have f2 : Frame (span (off ctx Ctx.datalen) 4) m1 m2 := store32_frame m1 _ _
  have far : ∀ {w k : ℕ}, 68 ≤ k → k + w / 8 ≤ 112 → load w m2 (off ctx k) = load w m (off ctx k) := by
    intro w k hk hw
    rw [f2.load_off (.inl (by simp only [Ctx.datalen]; omega)) (by decide) (by omega)]
    exact f1.load_off (.inl (by simp only [Ctx.data]; omega)) (by simp only [Ctx.data]; omega) (by omega)
  refine ⟨?_, ?_, ?_, ?_, ?_⟩
  · rw [List.length_append, List.length_singleton, hl, Nat.add_assoc]
  · rw [hlen, h.datalen_eq, BitVec.ofNat_add]
    rfl
  · rw [← h.bitlen_eq]
    exact far (by decide) (by decide)
  · intro j hj
    rw [Sha256.chain_append p [c] (by omega), ← h.state_eq j hj]
    exact far (by simp only [Ctx.state]; omega) (by simp only [Ctx.state]; omega)
  · intro j hj
    rw [f2.byte_off (.inr (by simp only [Ctx.datalen]; omega)) (by decide) (by omega)]
    by_cases he : j = r
    · rw [he, h1, show Ctx.data + r = r from Nat.zero_add r, update_self,
        List.getD_append_right _ _ _ _ (by omega), hl, Nat.sub_self, List.getD_cons_zero]
    · rw [f1.byte_off (by simp only [Ctx.data]; omega) (by simp only [Ctx.data]; omega) (by omega),
        h.data_eq j (by omega), List.getD_append _ _ _ _ (by omega)]

theorem flushBlock_spec (hk : KLoaded m) (h : Holding m ctx p b 64) :
    Holding (flushBlock ctx m) ctx p (b + 1) 0 := by
  have hs1 := transform_chain m ctx p b hk h.state_eq h.data_eq
  have hlen := (flushBlock_frame m ctx).2
  unfold flushBlock at hlen ⊢
  dsimp only at hlen ⊢
  set m1 := sha256Transform m ctx (off ctx Ctx.data) with h1
  set m2 := store m1 (off ctx Ctx.bitlen) (bitlen m1 ctx + 512) with h2
  set m3 := store m2 (off ctx Ctx.datalen) 0#32 with h3
  have f1 : Frame (span (off ctx Ctx.state) 32) m m1 := sha256Transform_frame m ctx _
  have f2 : Frame (span (off ctx Ctx.bitlen) 8) m1 m2 := store64_frame m1 _ _
  have f3 : Frame (span (off ctx Ctx.datalen) 4) m2 m3 := store32_frame m2 _ _
  refine ⟨?_, hlen, ?_, ?_, ?_⟩
  · rw [h.length_eq]
    ring
  · have e : bitlen m1 ctx = BitVec.ofNat 64 (512 * b) := by
      rw [← h.bitlen_eq]
      exact f1.load_off (by decide) (by decide) (by decide)
    calc bitlen m3 ctx = bitlen m2 ctx := f3.load_off (by decide) (by decide) (by decide)
      _ = bitlen m1 ctx + 512 := load_store64 m1 _ _
      _ = BitVec.ofNat 64 (512 * (b + 1)) := by rw [e, Nat.mul_add, BitVec.ofNat_add]; rfl
  · intro j hj
    rw [← hs1 j hj]
    have hhi : Ctx.state + 4 * j + 32 / 8 ≤ 2 ^ 64 := by simp only [Ctx.state]; omega
    exact (f3.load_off (.inl (by simp only [Ctx.datalen, Ctx.state]; omega)) (by decide) hhi).trans
      (f2.load_off (.inl (by simp only [Ctx.bitlen, Ctx.state]; omega)) (by decide) hhi)
  · intro i hi
    omega

variable (hd : Disjoint (span kTable 256) (span ctx Ctx.size))
include hd

/-- **One byte.** The context that has absorbed `p` absorbs `data[i]`. -/
theorem updateByte_spec (hk : KLoaded m) (h : Absorbed m ctx p) (data : Addr) (i : ℕ) :
    Absorbed (updateByte ctx data i m) ctx (p ++ [m (off data i)]) := by
  have hr : p.length % 64 < 64 := Nat.mod_lt _ (by norm_num)
  have h1 := bufferByte_spec h hr data i
  unfold updateByte
  dsimp only
  have hlen := h1.datalen_toNat (by omega)
  by_cases hfull : p.length % 64 + 1 = 64
  · rw [if_pos (by apply BitVec.eq_of_toNat_eq; rw [hlen, hfull]; rfl)]
    rw [hfull] at h1
    have f1 := (bufferByte_frame h.inBuffer data i).1
    exact (flushBlock_spec (hk.frame f1 hd) h1).absorbed (by norm_num)
  · rw [if_neg (by
      intro he
      rw [he] at hlen
      exact hfull hlen.symm)]
    exact h1.absorbed (by omega)

/-- **A whole call.** The bytes at `data` are absorbed in order, whatever the buffer held before. -/
theorem sha256Update_spec (hk : KLoaded m) (h : Absorbed m ctx p) {data : Addr} {len : ℕ} (hlen : len < 2 ^ 64)
    (hdata : Disjoint (span data len) (span ctx Ctx.size)) :
    Absorbed (sha256Update m ctx data len) ctx (p ++ bytesAt m data len) := by
  have hl := forLoop_induct (updateByte ctx data)
    (fun i m' => Frame (span ctx Ctx.size) m m' ∧ Absorbed m' ctx (p ++ bytesAt m data i)) 0 len m
    ⟨Frame.refl _ _, by simpa [bytesAt] using h⟩ (by
      rintro i m' _ hi ⟨hf, ha⟩
      refine ⟨hf.trans (updateByte_frame ha.inBuffer data i).1, ?_⟩
      rw [bytesAt_succ, ← List.append_assoc, ← hf.byte hdata (by omega) (by omega)]
      exact updateByte_spec hd (hk.frame hf hd) ha data i)
  rw [Nat.zero_add] at hl
  exact hl.2

end Xv6Boot.Sha256C
