import Xv6Boot.Bootloader.Sha256Meaning

/-! # `sha256_final` writes the digest

The two padding cases meet in one description of the buffer: below position 56 it holds the last block
of the padded message, the state holds the chain over all blocks before it. The length then completes
that block, one more compression finishes the chain, and the output loop spells it out.
-/

namespace Xv6Boot.Sha256C
open Function ByteMemory Loop StringC Layout
open Sha256 (Work Word)

/-! ## Padding the buffer -/

variable {i : ℕ} {m : Mem} {p : List Byte}

theorem data_subset (ctx : Addr) {n : ℕ} (h : i + n ≤ 64) : span (off ctx (Ctx.data + i)) n ⊆ span ctx 64 :=
  span_off_subset ctx (by simp only [Ctx.data]; omega) (by norm_num)

theorem padBuffer_spec (m : Mem) (ctx : Addr) {i : Word} {limit : ℕ} (hi : i.toNat < limit)
    (hl : limit ≤ 64) : Frame (span ctx 64) m (padBuffer m ctx i limit) ∧
      ∀ j < limit, padBuffer m ctx i limit (off ctx j) =
        if j < i.toNat then m (off ctx j) else if j = i.toNat then 0x80#8 else 0#8 := by
  unfold padBuffer
  dsimp only
  have hinc : (i + 1).toNat = i.toNat + 1 := by bv_omega
  rw [hinc]
  set m1 : Mem := update m (off ctx (Ctx.data + i.toNat)) 0x80#8 with h1
  have f1 : Frame (span (off ctx (Ctx.data + i.toNat)) 1) m m1 := update_frame m _ _
  have h := forLoop_induct (fun i m => update m (off ctx (Ctx.data + i)) 0x00#8)
    (fun l m' => Frame (span ctx 64) m m' ∧ ∀ j < l, m' (off ctx j) =
      if j < i.toNat then m (off ctx j) else if j = i.toNat then 0x80#8 else 0#8)
    (i.toNat + 1) (limit - (i.toNat + 1)) m1
    ⟨f1.mono (data_subset ctx (by omega)), by
      intro j hj
      by_cases he : j = i.toNat
      · rw [if_neg (by omega), if_pos he, he, h1, show Ctx.data + i.toNat = i.toNat from Nat.zero_add _,
          update_self]
      · rw [if_pos (by omega)]
        exact f1.byte_off (by simp only [Ctx.data]; omega) (by simp only [Ctx.data]; omega) (by omega)⟩
    (by
      rintro l m' hlo hhi ⟨hf, hv⟩
      have f2 : Frame (span (off ctx (Ctx.data + l)) 1) m'
          (update m' (off ctx (Ctx.data + l)) 0x00#8) := update_frame m' _ _
      refine ⟨hf.trans (f2.mono (data_subset ctx (by omega))), ?_⟩
      intro j hj
      by_cases he : j = l
      · rw [if_neg (by omega), if_neg (by omega), he, show Ctx.data + l = l from Nat.zero_add _,
          update_self]
      · rw [← hv j (by omega)]
        exact f2.byte_off (by simp only [Ctx.data]; omega) (by simp only [Ctx.data]; omega) (by omega))
  rw [show i.toNat + 1 + (limit - (i.toNat + 1)) = limit by omega] at h
  exact h

/-- What the first half of `sha256_final` leaves: everything but the length field is in place. -/
structure Padded (m : Mem) (ctx : Addr) (p : List Byte) : Prop where
  datalen_eq : datalen m ctx = BitVec.ofNat 32 (p.length % 64)
  bitlen_eq : bitlen m ctx = BitVec.ofNat 64 (512 * (p.length / 64))
  state_eq : ∀ j < 8, load 32 m (stateAddr ctx j) =
    (Sha256.chain (Sha256.pad p) ((p.length + 8) / 64)).get j
  data_eq : ∀ i < 56, m (off ctx i) = (Sha256.pad p).getD (64 * ((p.length + 8) / 64) + i) 0

def padPhase (m : Mem) (ctx : Addr) : Mem :=
  if datalen m ctx < 56 then padBuffer m ctx (datalen m ctx) 56
  else memset (sha256Transform (padBuffer m ctx (datalen m ctx) 64) ctx (off ctx Ctx.data))
    (off ctx Ctx.data) 0 56

theorem chain_pad (p : List Byte) : Sha256.chain (Sha256.pad p) (p.length / 64) =
    Sha256.chain p (p.length / 64) :=
  Sha256.chain_congr fun i hi => Sha256.pad_getD_message p (by omega)

theorem pad_getD_buffer (p : List Byte) {f : ℕ → Byte}
    (hf : ∀ i < p.length % 64, f i = p.getD (64 * (p.length / 64) + i) 0)
    (hi : 64 * (p.length / 64) + i < 64 * ((p.length + 8) / 64 + 1) - 8) :
    (if i < p.length % 64 then f i else if i = p.length % 64 then 0x80#8 else 0#8) =
      (Sha256.pad p).getD (64 * (p.length / 64) + i) 0 := by
  by_cases h1 : i < p.length % 64
  · rw [if_pos h1, hf i h1, Sha256.pad_getD_message p (by omega)]
  · rw [if_neg h1]
    by_cases h2 : i = p.length % 64
    · rw [if_pos h2, show 64 * (p.length / 64) + i = p.length by omega, Sha256.pad_getD_marker]
    · rw [if_neg h2, Sha256.pad_getD_zero p (by omega) hi]
      rfl

variable {ctx : Addr}

theorem load_behind_data {m' : Mem} (hf : Frame (span ctx 64) m m') {w k : ℕ} (hk : 64 ≤ k)
    (hw : k + w / 8 ≤ 2 ^ 64) : load w m' (off ctx k) = load w m (off ctx k) := by
  rw [← off_zero ctx] at hf
  exact Frame.load_off hf (.inl (by omega)) (by norm_num) hw

theorem padPhase_frame (h : InBuffer m ctx) : Frame (span ctx Ctx.size) m (padPhase m ctx) := by
  have h64 : span ctx 64 ⊆ span ctx Ctx.size := span_mono ctx (by decide)
  unfold padPhase
  by_cases hlt : datalen m ctx < 56
  · rw [if_pos hlt]
    exact (padBuffer_spec m ctx hlt (by decide)).1.mono h64
  · rw [if_neg hlt, memset_eq_put _ _ _ (by norm_num)]
    set m1 := padBuffer m ctx (datalen m ctx) 64
    have f1 : Frame (span ctx 64) m m1 := (padBuffer_spec m ctx h le_rfl).1
    have f2 := sha256Transform_frame m1 ctx (off ctx Ctx.data)
    refine ((f1.mono h64).trans (f2.mono (state_subset ctx))).trans ((put_frame _ _ _ _).mono ?_)
    exact span_off_subset ctx (by decide) (by decide)

theorem padPhase_short (h : Absorbed m ctx p) (hlt : p.length % 64 < 56) :
    Padded (padBuffer m ctx (datalen m ctx) 56) ctx p := by
  have hdl := Holding.datalen_toNat h (by omega)
  have hN : (p.length + 8) / 64 = p.length / 64 := by omega
  obtain ⟨hf, hv⟩ := padBuffer_spec m ctx (i := datalen m ctx) (by rw [hdl]; exact hlt)
    (by norm_num : (56 : ℕ) ≤ 64)
  refine ⟨?_, ?_, ?_, ?_⟩
  · rw [← h.datalen_eq]
    exact load_behind_data hf (by decide) (by decide)
  · rw [← h.bitlen_eq]
    exact load_behind_data hf (by decide) (by decide)
  · intro j hj
    rw [hN, chain_pad, ← h.state_eq j hj]
    exact load_behind_data hf (by simp only [Ctx.state]; omega) (by simp only [Ctx.state]; omega)
  · intro i hi
    rw [hv i hi, hN, hdl]
    exact pad_getD_buffer p h.data_eq (by omega)

section Final
variable (hd : Disjoint (span kTable 256) (span ctx Ctx.size))
include hd

theorem padPhase_long (hk : KLoaded m) (h : Absorbed m ctx p) (hge : 56 ≤ p.length % 64) :
    Padded (memset (sha256Transform (padBuffer m ctx (datalen m ctx) 64) ctx (off ctx Ctx.data))
      (off ctx Ctx.data) 0 56) ctx p := by
  have hr : p.length % 64 < 64 := Nat.mod_lt _ (by norm_num)
  have hdl := Holding.datalen_toNat h hr.le
  have hN : (p.length + 8) / 64 = p.length / 64 + 1 := by omega
  have h64 : span ctx 64 ⊆ span ctx Ctx.size := span_mono ctx (by decide)
  obtain ⟨f1, hv⟩ := padBuffer_spec m ctx (i := datalen m ctx) (by rw [hdl]; exact hr) le_rfl
  set m1 := padBuffer m ctx (datalen m ctx) 64 with h1
  have hs1 : ∀ j < 8, load 32 m1 (stateAddr ctx j) =
      (Sha256.chain (Sha256.pad p) (p.length / 64)).get j := by
    intro j hj
    rw [chain_pad, ← h.state_eq j hj]
    exact load_behind_data f1 (by simp only [Ctx.state]; omega) (by simp only [Ctx.state]; omega)
  have hb1 : ∀ i < 64, m1 (off ctx i) = (Sha256.pad p).getD (64 * (p.length / 64) + i) 0 := by
    intro i hi
    rw [hv i hi, hdl]
    exact pad_getD_buffer p h.data_eq (by omega)
  have hs2 := transform_chain m1 ctx (Sha256.pad p) (p.length / 64) (hk.frame (f1.mono h64) hd) hs1 hb1
  have f2 := sha256Transform_frame m1 ctx (off ctx Ctx.data)
  set m2 := sha256Transform m1 ctx (off ctx Ctx.data) with h2
  have hset : memset m2 (off ctx Ctx.data) 0 56 = put m2 (off ctx 0) 56 fun _ => 0 :=
    memset_eq_put m2 (off ctx 0) 0 (by norm_num)
  rw [hset]
  set m3 := put m2 (off ctx 0) 56 fun _ => 0 with h3
  have f3 : Frame (span (off ctx 0) 56) m2 m3 := put_frame m2 _ 56 _
  refine ⟨?_, ?_, ?_, ?_⟩
  · rw [← h.datalen_eq]
    calc datalen m3 ctx = datalen m2 ctx := f3.load_off (by decide) (by decide) (by decide)
      _ = datalen m1 ctx := f2.load_off (by decide) (by decide) (by decide)
      _ = datalen m ctx := load_behind_data f1 (by decide) (by decide)
  · rw [← h.bitlen_eq]
    calc bitlen m3 ctx = bitlen m2 ctx := f3.load_off (by decide) (by decide) (by decide)
      _ = bitlen m1 ctx := f2.load_off (by decide) (by decide) (by decide)
      _ = bitlen m ctx := load_behind_data f1 (by decide) (by decide)
  · intro j hj
    rw [hN, ← hs2 j hj]
    exact f3.load_off (.inl (by simp only [Ctx.state]; omega)) (by norm_num)
      (by simp only [Ctx.state]; omega)
  · intro i hi
    rw [h3, ← off_zero (off ctx i), off_off, Nat.add_comm, ← off_off,
      put_off m2 (off ctx 0) _ hi (by omega), hN, Sha256.pad_getD_zero p (by omega) (by omega)]

theorem padPhase_spec (hk : KLoaded m) (h : Absorbed m ctx p) : Padded (padPhase m ctx) ctx p := by
  have hdl := Holding.datalen_toNat h (by omega)
  unfold padPhase
  by_cases hlt : p.length % 64 < 56
  · rw [if_pos (by rw [BitVec.lt_def, hdl]; exact hlt)]
    exact padPhase_short h hlt
  · rw [if_neg (by rw [BitVec.lt_def, hdl]; exact hlt)]
    exact padPhase_long hd hk h (by omega)

end Final

/-! ## The length and the output -/

theorem putBitlen_spec (m : Mem) (ctx : Addr) : Frame (span (off ctx 56) 8) m (putBitlen m ctx) ∧
    ∀ i < 8, putBitlen m ctx (off ctx (63 - i)) = (bitlen m ctx >>> (8 * i)).setWidth 8 := by
  unfold putBitlen
  have h := forLoop_induct (fun i m => update m (off ctx (Ctx.data + (63 - i)))
      ((bitlen m ctx >>> (8 * i)).setWidth 8))
    (fun l m' => Frame (span (off ctx 56) 8) m m' ∧
      ∀ i < l, m' (off ctx (63 - i)) = (bitlen m ctx >>> (8 * i)).setWidth 8) 0 8 m
    ⟨Frame.refl _ _, fun i hi => absurd hi (Nat.not_lt_zero i)⟩ (by
      rintro l m' _ hl ⟨hf, hv⟩
      have hb : bitlen m' ctx = bitlen m ctx := hf.load_off (by decide) (by decide) (by decide)
      have f1 : Frame (span (off ctx (63 - l)) 1) m' (update m' (off ctx (63 - l))
        ((bitlen m' ctx >>> (8 * l)).setWidth 8)) := update_frame m' _ _
      rw [show Ctx.data + (63 - l) = 63 - l from Nat.zero_add _]
      refine ⟨hf.trans (f1.mono ?_), ?_⟩
      · rw [show 63 - l = 56 + (7 - l) by omega, ← off_off]
        exact span_off_subset _ (by omega) (by norm_num)
      · intro i hi
        by_cases he : i = l
        · rw [he, update_self, hb]
        · rw [f1.byte_off (by omega) (by omega) (by omega), hv i (by omega)])
  exact h

theorem lengthByte_eq {n : ℕ} (hn : 8 * n < 2 ^ 64) (i : ℕ) :
    (BitVec.ofNat 64 (8 * n) >>> (8 * (7 - i))).setWidth 8 = Sha256.lengthByte (8 * n) i := by
  apply BitVec.eq_of_toNat_eq
  rw [Sha256.lengthByte, BitVec.toNat_setWidth, BitVec.toNat_ushiftRight, BitVec.toNat_ofNat,
    BitVec.toNat_ofNat, Nat.mod_eq_of_lt hn, Nat.shiftRight_eq_div_pow, Nat.pow_mul]

theorem outByte_eq (v : Work) {j : ℕ} (hi : i < 4) :
    (((v.get j >>> (24 - i * 8)) &&& 0xff).setWidth 8 : Byte) = Sha256.outByte v (i + 4 * j) := by
  rw [Sha256.outByte, show (i + 4 * j) / 4 = j by omega, show (i + 4 * j) % 4 = i by omega,
    Nat.mul_comm i 8]
  apply BitVec.eq_of_getLsbD_eq
  intro b hb
  simp only [BitVec.getLsbD_setWidth, BitVec.getLsbD_and]
  have h255 : BitVec.getLsbD (0xff : Word) b = true := by interval_cases b <;> rfl
  rw [h255, Bool.and_true]

theorem putHash_frame (m : Mem) (ctx hash : Addr) : Frame (span hash 32) m (putHash m ctx hash) :=
  forLoop_induct _ (fun _ m' => Frame (span hash 32) m m') 0 4 m (Frame.refl _ _) fun i m1 _ hi hf1 =>
    forLoop_induct _ (fun _ m' => Frame (span hash 32) m m') 0 8 m1 hf1 fun j m2 _ hj hf2 =>
      hf2.trans ((update_frame m2 _ _).mono (span_off_subset hash (by omega) (by norm_num)))

theorem putHash_spec (m : Mem) {ctx hash : Addr} {v : Work} (hs : ∀ j < 8, load 32 m (stateAddr ctx j) = v.get j)
    (hh : Disjoint (span ctx Ctx.size) (span hash 32)) :
    ∀ q < 32, putHash m ctx hash (off hash q) = Sha256.outByte v q := by
  have step : ∀ (i j : ℕ) (m' : Mem), i < 4 → j < 8 → Frame (span hash 32) m m' →
      Frame (span (off hash (i + 4 * j)) 1) m' (update m' (off hash (i + 4 * j))
        (((load 32 m' (stateAddr ctx j) >>> (24 - i * 8)) &&& 0xff).setWidth 8)) ∧
      update m' (off hash (i + 4 * j))
        (((load 32 m' (stateAddr ctx j) >>> (24 - i * 8)) &&& 0xff).setWidth 8)
        (off hash (i + 4 * j)) = Sha256.outByte v (i + 4 * j) := by
    intro i j m' hi hj hf
    refine ⟨update_frame m' _ _, ?_⟩
    rw [update_self, ← outByte_eq v hi, ← hs j hj, hf.load_eq (hh.mono_left _) (by norm_num)]
    exact span_off_subset ctx (by simp only [Ctx.state, Ctx.size]; omega) (by decide)
  -- Output byte `q` is written in round `q % 4` of the outer loop, at `j = q / 4`.
  have h := forLoop_induct (fun i m => forLoop (fun j m => update m (off hash (i + 4 * j))
      (((load 32 m (stateAddr ctx j) >>> (24 - i * 8)) &&& 0xff).setWidth 8)) 0 8 m)
    (fun i m' => Frame (span hash 32) m m' ∧
      ∀ q < 32, q % 4 < i → m' (off hash q) = Sha256.outByte v q) 0 4 m
    ⟨Frame.refl _ _, fun q _ hq => absurd hq (Nat.not_lt_zero _)⟩ (by
      rintro i m1 _ hi ⟨hf1, hv1⟩
      have h' := forLoop_induct (fun j m => update m (off hash (i + 4 * j))
          (((load 32 m (stateAddr ctx j) >>> (24 - i * 8)) &&& 0xff).setWidth 8))
        (fun j m' => Frame (span hash 32) m m' ∧
          ∀ q < 32, q % 4 < i ∨ q % 4 = i ∧ q / 4 < j → m' (off hash q) = Sha256.outByte v q) 0 8 m1
        ⟨hf1, fun q hq hc => hv1 q hq (by omega)⟩ (by
          rintro j m2 _ hj ⟨hf2, hv2⟩
          obtain ⟨f3, hw⟩ := step i j m2 (by omega) (by omega) hf2
          refine ⟨hf2.trans (f3.mono (span_off_subset hash (by omega) (by norm_num))), ?_⟩
          intro q hq hc
          by_cases he : q = i + 4 * j
          · rw [he]
            exact hw
          · rw [f3.byte_off (by omega) (by omega) (by omega)]
            exact hv2 q hq (by omega))
      exact ⟨h'.1, fun q hq hc => h'.2 q hq (by omega)⟩)
  exact fun q hq => h.2 q hq (by omega)

/-! ## The digest -/

theorem sha256Final_eq (m : Mem) (ctx hash : Addr) : sha256Final m ctx hash =
    let m := padPhase m ctx
    let m := store m (off ctx Ctx.bitlen) (bitlen m ctx + (datalen m ctx * 8).setWidth 64)
    putHash (sha256Transform (putBitlen m ctx) ctx (off ctx Ctx.data)) ctx hash := rfl

theorem Padded.bitlen_add (h : Padded m ctx p) :
    bitlen m ctx + (datalen m ctx * 8).setWidth 64 = BitVec.ofNat 64 (8 * p.length) := by
  rw [h.bitlen_eq, h.datalen_eq]
  apply BitVec.eq_of_toNat_eq
  have h8 : (8 : Word).toNat = 8 := rfl
  simp only [BitVec.toNat_add, BitVec.toNat_mul, BitVec.toNat_setWidth, BitVec.toNat_ofNat, h8]
  omega

theorem sha256Final_frame (h : InBuffer m ctx) (hash : Addr) :
    Frame (span ctx Ctx.size ∪ span hash 32) m (sha256Final m ctx hash) := by
  rw [sha256Final_eq]
  dsimp only
  set m1 := padPhase m ctx
  set m2 := store m1 (off ctx Ctx.bitlen) (bitlen m1 ctx + (datalen m1 ctx * 8).setWidth 64)
  have f1 : Frame (span ctx Ctx.size) m m1 := padPhase_frame h
  have f2 : Frame (span (off ctx Ctx.bitlen) 8) m1 m2 := store64_frame m1 _ _
  have f3 := (putBitlen_spec m2 ctx).1
  have f4 := sha256Transform_frame (putBitlen m2 ctx) ctx (off ctx Ctx.data)
  refine Frame.trans_union ?_ (putHash_frame _ ctx hash)
  refine ((f1.trans (f2.mono (bitlen_subset ctx))).trans (f3.mono ?_)).trans (f4.mono (state_subset ctx))
  exact span_off_subset ctx (by decide) (by decide)

/-- **`sha256_final`.** The 32 bytes at `hash` become the digest of everything absorbed. -/
theorem sha256Final_spec {ctx hash : Addr} (hd : Disjoint (span kTable 256) (span ctx Ctx.size))
    (hh : Disjoint (span ctx Ctx.size) (span hash 32)) (hk : KLoaded m) (h : Absorbed m ctx p)
    (hp : 8 * p.length < 2 ^ 64) : bytesAt (sha256Final m ctx hash) hash 32 = Sha256.digest p := by
  have f1 := padPhase_frame h.inBuffer
  have hpad := padPhase_spec hd hk h
  rw [sha256Final_eq]
  dsimp only
  rw [hpad.bitlen_add]
  set N := (p.length + 8) / 64 with hN
  set m1 := padPhase m ctx with h1
  set m2 := store m1 (off ctx Ctx.bitlen) (BitVec.ofNat 64 (8 * p.length)) with h2
  have f2 : Frame (span (off ctx Ctx.bitlen) 8) m1 m2 := store64_frame m1 _ _
  obtain ⟨f3, hv3⟩ := putBitlen_spec m2 ctx
  set m3 := putBitlen m2 ctx with h3
  have f13 : Frame (span ctx Ctx.size) m m3 := (f1.trans (f2.mono (bitlen_subset ctx))).trans
    (f3.mono (span_off_subset ctx (by decide) (by decide)))
  have hs3 : ∀ j < 8, load 32 m3 (stateAddr ctx j) = (Sha256.chain (Sha256.pad p) N).get j := by
    intro j hj
    have hhi : Ctx.state + 4 * j + 32 / 8 ≤ 2 ^ 64 := by simp only [Ctx.state]; omega
    rw [← hpad.state_eq j hj]
    exact (f3.load_off (.inl (by simp only [Ctx.state]; omega)) (by decide) hhi).trans
      (f2.load_off (.inl (by simp only [Ctx.bitlen, Ctx.state]; omega)) (by decide) hhi)
  have hb3 : ∀ i < 64, m3 (off ctx i) = (Sha256.pad p).getD (64 * N + i) 0 := by
    intro i hi
    by_cases hlt : i < 56
    · rw [← hpad.data_eq i hlt, f3.byte_off (.inr hlt) (by decide) (by omega)]
      exact f2.byte_off (.inr (by simp only [Ctx.bitlen]; omega)) (by decide) (by omega)
    · obtain ⟨j, hj, rfl⟩ : ∃ j < 8, i = 56 + j := ⟨i - 56, by omega, by omega⟩
      have hb : bitlen m2 ctx = BitVec.ofNat 64 (8 * p.length) := load_store64 m1 _ _
      rw [show 56 + j = 63 - (7 - j) by omega, hv3 (7 - j) (by omega), hb, lengthByte_eq hp,
        ← Sha256.pad_getD_length p hj]
      congr 1
      omega
  have hs4 := transform_chain m3 ctx (Sha256.pad p) N (hk.frame f13 hd) hs3 hb3
  have hv5 := putHash_spec (sha256Transform m3 ctx (off ctx Ctx.data)) hs4 hh
  apply List.ext_getElem (by simp)
  intro q hq _
  have hq' : q < 32 := by simpa using hq
  rw [List.getElem_eq_getD 0, List.getElem_eq_getD 0, bytesAt_getD _ _ hq', hv5 q hq',
    Sha256.digest_getD p hq']

end Xv6Boot.Sha256C
