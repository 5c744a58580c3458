import Xv6Boot.User.Printf

/-! # The two `printf`s

The texts are compared character by character, up to the case of hexadecimal digits. They agree exactly if every
argument of a long conversion survives its conversion to the `int` of the user's `printint`.
-/

namespace Xv6Boot.User.Printf
open ByteMemory Numeral Kernel.Printf

/-- The kernel's character `a` and the user's `b`, up to the case of hexadecimal digits. -/
def Same (a b : Byte) : Prop := b = a ∨ 97 ≤ a ∧ a ≤ 102 ∧ b = a - 32

instance (a b : Byte) : Decidable (Same a b) := inferInstanceAs (Decidable (_ ∨ _))

def Agree (kernel user : Option (List Byte)) : Prop :=
  ∃ k u, kernel = some k ∧ user = some u ∧ List.Forall₂ Same k u

/-! ## Arguments -/

def base : Conv → ℕ
  | .x | .lx | .llx => 16
  | _ => 10

def kernelValue (w : BitVec 64) : Conv → ℤ
  | .d => (vaInt w).toInt
  | .ld | .lld => w.toInt
  | .u | .x => (vaInt w).toNat
  | .lu | .llu | .lx | .llx => w.toNat
  | _ => 0

def userValue (w : BitVec 64) : Conv → ℤ
  | .d | .ld | .lld => (vaInt w).toInt
  | .u | .x | .lu | .llu | .lx | .llx => (vaInt w).toNat
  | _ => 0

/-- Long decimal arguments below `10 ^ 15` in magnitude; `%u` and `%x` arguments not negative. -/
def Supplied (w : BitVec 64) : Conv → Prop
  | .ld | .lld => -10 ^ 15 < w.toInt ∧ w.toInt < 10 ^ 15
  | .lu | .llu => w.toNat < 10 ^ 15
  | .u | .x => 0 ≤ (vaInt w).toInt
  | _ => True

/-- The argument of a long conversion is an `int`, or an `unsigned int`. -/
def Fits (w : BitVec 64) : Conv → Prop
  | .ld | .lld => -2 ^ 31 ≤ w.toInt ∧ w.toInt < 2 ^ 31
  | .lu | .llu | .lx | .llx => w.toNat < 2 ^ 32
  | _ => True

namespace Item
variable (ap : ℕ → BitVec 64)

def Supplied : Item → Prop
  | .lit _ => True
  | .conv c n => Printf.Supplied (ap n) c

def Fits : Item → Prop
  | .lit _ => True
  | .conv c n => Printf.Fits (ap n) c

end Item

variable {str : Addr → List Byte} {ap : ℕ → BitVec 64} {w : BitVec 64} {c : Conv}

theorem vaInt_toNat (w : BitVec 64) : (vaInt w).toNat = w.toNat % 2 ^ 32 := BitVec.toNat_setWidth 32 w

theorem toInt_nonneg_iff (x : BitVec 32) : 0 ≤ x.toInt ↔ x.toNat < 2 ^ 31 := by
  have := x.isLt
  rw [BitVec.toInt_eq_toNat_cond]
  split <;> omega

theorem toInt_cases (w : BitVec 64) :
    (w.toNat < 2 ^ 63 ∧ w.toInt = w.toNat) ∨ (2 ^ 63 ≤ w.toNat ∧ w.toInt = w.toNat - 2 ^ 64) := by
  have := w.isLt
  rw [BitVec.toInt_eq_toNat_cond]
  split <;> omega

theorem vaInt_toInt_cases (w : BitVec 64) :
    ((vaInt w).toNat < 2 ^ 31 ∧ (vaInt w).toInt = (vaInt w).toNat) ∨
      (2 ^ 31 ≤ (vaInt w).toNat ∧ (vaInt w).toInt = (vaInt w).toNat - 2 ^ 32) := by
  have := (vaInt w).isLt
  rw [BitVec.toInt_eq_toNat_cond]
  split <;> omega

theorem kernelValue_eq_iff (hc : c.IsNumber) : kernelValue w c = userValue w c ↔ Fits w c := by
  have hmod := vaInt_toNat w
  have hlt := w.isLt
  cases c with
  | d | u | x => exact iff_of_true rfl trivial
  | ld | lld =>
    simp only [kernelValue, userValue, Fits]
    rcases toInt_cases w with h | h <;> rcases vaInt_toInt_cases w with h' | h' <;> omega
  | lu | llu | lx | llx =>
    simp only [kernelValue, userValue, Fits]
    omega
  | p | s | percent | unknown => exact hc.elim

theorem userValue_natAbs_le : (userValue w c).natAbs ≤ (kernelValue w c).natAbs := by
  have hmod := vaInt_toNat w
  have hlt := w.isLt
  cases c with
  | ld | lld =>
    simp only [kernelValue, userValue]
    rcases toInt_cases w with h | h <;> rcases vaInt_toInt_cases w with h' | h' <;> omega
  | lu | llu | lx | llx =>
    simp only [kernelValue, userValue]
    omega
  | d | u | x | p | s | percent | unknown => exact le_rfl

/-! ## The number printers -/

theorem kernel_convert (hc : c.IsNumber) (hw : Supplied w c) :
    Kernel.Printf.convert str w c = some (intNumeral (base c) (kernelValue w c)) := by
  cases c with
  | d => exact convert_d
  | ld | lld => exact printint_decimal.mpr ⟨hw.1, hw.2.trans (by norm_num)⟩
  | u =>
    rw [convert_u.mpr ((toInt_nonneg_iff _).mp hw)]
    exact congrArg some (intNumeral_natCast 10 _).symm
  | lu | llu =>
    refine (printint_udecimal.mpr (lt_trans hw (by norm_num))).trans ?_
    exact congrArg some (intNumeral_natCast 10 _).symm
  | x =>
    rw [convert_x.mpr ((toInt_nonneg_iff _).mp hw)]
    exact congrArg some (intNumeral_natCast 16 _).symm
  | lx | llx => exact printint_hex.trans (congrArg some (intNumeral_natCast 16 _).symm)
  | p | s | percent | unknown => exact hc.elim

def userNumeral (b : ℕ) (z : ℤ) : List Byte := signed digit 45 b z.natAbs (decide (z < 0))

theorem userNumeral_length_le {b : ℕ} {z : ℤ} (hb : 10 ≤ b) (hz : z.natAbs < 2 ^ 32) :
    (userNumeral b z).length ≤ 16 := by
  have hpow : z.natAbs < b ^ 15 := (hz.trans (by norm_num)).trans_le (Nat.pow_le_pow_left hb 15)
  have hlen := (numeral_length_le (by omega : 1 < b) (by decide : 0 < 15)).mpr hpow
  rw [userNumeral, signed, List.length_append, List.length_map]
  split <;> simp <;> omega

theorem printint_eq (xx : BitVec 32) {b : ℕ} (hb : 10 ≤ b) (sgn : Bool) :
    printint xx b sgn = some (userNumeral b (if sgn then xx.toInt else xx.toNat)) := by
  have hlt := xx.isLt
  have hcond := BitVec.toInt_eq_toNat_cond xx
  have hroom : ((if sgn then xx.toInt else xx.toNat) : ℤ).natAbs < 2 ^ 32 := by
    split
    · rw [hcond]
      split <;> omega
    · exact hlt
  unfold printint
  rw [printThrough_eq digit 45 (by omega : 1 < b)]
  have hsame : signed digit 45 b (if sgn && decide (xx.toInt < 0) then -xx else xx).toNat
      (sgn && decide (xx.toInt < 0)) = userNumeral b (if sgn then xx.toInt else xx.toNat) := by
    cases sgn with
    | false =>
      have hnonneg : ¬(xx.toNat : ℤ) < 0 := by omega
      simp [userNumeral, hnonneg]
    | true =>
      by_cases hneg : xx.toInt < 0
      · simp [userNumeral, hneg, neg_toNat hneg]
      · have hnat : xx.toNat = xx.toInt.natAbs := by
          rw [hcond] at hneg ⊢
          split <;> omega
        simp [userNumeral, hneg, hnat]
  simp only [hsame]
  exact if_pos (userNumeral_length_le hb hroom)

theorem user_convert (hc : c.IsNumber) : convert str w c = some (userNumeral (base c) (userValue w c)) := by
  cases c with
  | d | ld | lld => exact printint_eq _ (by decide) true
  | u | lu | llu | x | lx | llx => exact printint_eq _ (by decide) false
  | p | s | percent | unknown => exact hc.elim

/-! ## Characters -/

theorem same_digit : ∀ i < 16, Same (Kernel.Printf.digit i) (digit i) := by decide

theorem same_digit_inj : ∀ i < 16, ∀ j < 16, Same (Kernel.Printf.digit i) (digit j) → i = j := by decide

theorem not_same_minus : ∀ j < 16, ¬Same 45 (digit j) := by decide

theorem not_same_digit_minus : ∀ i < 16, ¬Same (Kernel.Printf.digit i) 45 := by decide

theorem forall₂_same_refl (l : List Byte) : List.Forall₂ Same l l := List.forall₂_same.mpr fun _ _ => .inl rfl

theorem same_printptr (w : BitVec 64) : List.Forall₂ Same (Kernel.Printf.printptr w) (printptr w) := by
  refine .cons (.inl rfl) (.cons (.inl rfl) ?_)
  rw [List.forall₂_map_left_iff, List.forall₂_map_right_iff, List.forall₂_same]
  intro i _
  refine same_digit _ ?_
  have := (w <<< (4 * i)).isLt
  rw [BitVec.toNat_ushiftRight, Nat.shiftRight_eq_div_pow]
  omega

/-- The characters other than `-`. -/
def shown (l : List Byte) : ℕ := l.countP (· ≠ 45)

theorem shown_append (l l' : List Byte) : shown (l ++ l') = shown l + shown l' := List.countP_append

theorem shown_of_same {k u : List Byte} (h : List.Forall₂ Same k u) : shown k = shown u := by
  induction h with
  | nil => rfl
  | @cons a b k u hab _ ih =>
    have hminus : a ≠ 45 ↔ b ≠ 45 := by
      rcases hab with rfl | ⟨hlow, hhigh, rfl⟩
      · exact Iff.rfl
      · revert hlow hhigh
        revert a
        decide
    simp only [shown, List.countP_cons, hminus] at ih ⊢
    rw [ih]

theorem shown_signed {d : ℕ → Byte} {b : ℕ} (hd : ∀ i < b, d i ≠ 45) (hb : 1 < b) (x : ℕ) (s : Bool) :
    shown (signed d 45 b x s) = (numeral b x).length := by
  have hmap : shown ((numeral b x).map d) = (numeral b x).length := by
    rw [shown, List.countP_eq_length.mpr, List.length_map]
    intro a ha
    obtain ⟨i, hi, rfl⟩ := List.mem_map.mp ha
    simpa using hd i (numeral_lt hb hi)
  rw [signed, shown_append, hmap]
  cases s <;> simp [shown]

/-! ## Items -/

/-- `k` and `u` are printed for an item. The kernel's text has at least as many characters other than `-`; if it has as
many, then agreement with what follows decides about the item. -/
structure Printed (str : Addr → List Byte) (ap : ℕ → BitVec 64) (it : Item) (k u : List Byte) : Prop where
  kernel : it.emit (Kernel.Printf.convert str) ap = some k
  user : it.emit (convert str) ap = some u
  shown_le : shown u ≤ shown k
  same : it.Fits ap → List.Forall₂ Same k u
  fits : ∀ l l', shown k = shown u → List.Forall₂ Same (k ++ l) (u ++ l') → it.Fits ap

theorem Printed.of_same {it : Item} {k u : List Byte} (hk : it.emit (Kernel.Printf.convert str) ap = some k)
    (hu : it.emit (convert str) ap = some u) (hsame : List.Forall₂ Same k u) (hfits : it.Fits ap) :
    Printed str ap it k u where
  kernel := hk
  user := hu
  shown_le := (shown_of_same hsame).ge
  same _ := hsame
  fits _ _ _ _ := hfits

theorem base_bounds (c : Conv) : 1 < base c ∧ base c ≤ 16 := by
  unfold base
  split <;> omega

theorem Printed.of_number {n : ℕ} (hc : c.IsNumber) (hw : Supplied (ap n) c) :
    Printed str ap (.conv c n) (intNumeral (base c) (kernelValue (ap n) c))
      (userNumeral (base c) (userValue (ap n) c)) := by
  have hb := base_bounds c
  have hkernel : shown (intNumeral (base c) (kernelValue (ap n) c)) = _ :=
    shown_signed (fun i hi => digit_ne_minus (hi.trans_le hb.2)) hb.1 _ _
  have huser : shown (userNumeral (base c) (userValue (ap n) c)) = _ :=
    shown_signed (fun i hi heq => not_same_minus i (hi.trans_le hb.2) (.inl heq)) hb.1 _ _
  refine ⟨kernel_convert hc hw, user_convert hc, ?_, ?_, ?_⟩
  · rw [hkernel, huser]
    exact numeral_length_mono _ userValue_natAbs_le
  · intro hfits
    rw [intNumeral, userNumeral, (kernelValue_eq_iff hc).mpr hfits]
    exact forall₂_signed (fun i hi => same_digit i (hi.trans_le hb.2)) (.inl rfl) hb.1
  · intro l l' hshown hall
    rw [hkernel, huser] at hshown
    obtain ⟨habs, hsign⟩ := eq_of_forall₂_signed
      (fun i hi j hj => same_digit_inj i (hi.trans_le hb.2) j (hj.trans_le hb.2))
      (fun j hj => not_same_minus j (hj.trans_le hb.2)) (fun i hi => not_same_digit_minus i (hi.trans_le hb.2))
      hb.1 hshown hall
    rw [decide_eq_decide] at hsign
    exact (kernelValue_eq_iff hc).mp (by omega)

theorem exists_printed (str : Addr → List Byte) {it : Item} (h : it.Supplied ap) : ∃ k u, Printed str ap it k u := by
  cases it with
  | lit a => exact ⟨[a], [a], .of_same rfl rfl (forall₂_same_refl _) trivial⟩
  | conv c n =>
    cases c with
    | p => exact ⟨_, _, .of_same rfl rfl (same_printptr (ap n)) trivial⟩
    | s | percent | unknown => exact ⟨_, _, .of_same rfl rfl (forall₂_same_refl _) trivial⟩
    | _ => exact ⟨_, _, .of_number trivial h⟩

theorem emit_outputs (str : Addr → List Byte) {its : List Item} (h : ∀ it ∈ its, it.Supplied ap) :
    ∃ k u, emit (Kernel.Printf.convert str) ap its = some k ∧ emit (convert str) ap its = some u ∧ shown u ≤ shown k ∧
      (List.Forall₂ Same k u ↔ ∀ it ∈ its, it.Fits ap) := by
  induction its with
  | nil => exact ⟨[], [], rfl, rfl, le_rfl, iff_of_true .nil (by simp)⟩
  | cons it its ih =>
    rw [List.forall_mem_cons] at h
    obtain ⟨k, u, hp⟩ := exists_printed str h.1
    obtain ⟨ks, us, hks, hus, hles, hiff⟩ := ih h.2
    have hle := hp.shown_le
    refine ⟨k ++ ks, u ++ us, by simp [emit, hp.kernel, hks], by simp [emit, hp.user, hus], ?_, ?_⟩
    · rw [shown_append, shown_append]
      omega
    · rw [List.forall_mem_cons]
      constructor
      · intro hall
        have htotal := shown_of_same hall
        rw [shown_append, shown_append] at htotal
        have hit := hp.fits ks us (by omega) hall
        exact ⟨hit, hiff.mp (forall₂_split (hp.same hit).length_eq hall).2⟩
      · rintro ⟨hit, hits⟩
        exact List.rel_append (hp.same hit) (hiff.mpr hits)

variable {fmt : List Byte}

/-- The user's `vprintf` writes what the kernel's `printf` sends to the console exactly if all long arguments fit. -/
theorem vprintf_agrees (h : ∀ it ∈ items fmt, it.Supplied ap) :
    Agree (Kernel.Printf.printf str ap fmt) (vprintf str ap fmt) ↔ ∀ it ∈ items fmt, it.Fits ap := by
  obtain ⟨k, u, hk, hu, _, hiff⟩ := emit_outputs str h
  rw [printf_eq, vprintf_eq, hk, hu, ← hiff]
  constructor
  · rintro ⟨k', u', hk', hu', hsame⟩
    cases hk'
    cases hu'
    exact hsame
  · intro hsame
    exact ⟨k, u, rfl, rfl, hsame⟩

/-- `"%ld %x%"` -/
def mixedFormat : List Byte := [37, 108, 100, 32, 37, 120, 37]

theorem items_mixedFormat : items mixedFormat = [.conv .ld 0, .lit 32, .conv .x 1] := by decide

/-- `-7 ff` is printed as `-7 FF`, and nothing for the last `%`. -/
theorem mixedFormat_agrees :
    Agree (Kernel.Printf.printf (fun _ => []) (fun n => if n = 0 then -7 else 255) mixedFormat)
      (vprintf (fun _ => []) (fun n => if n = 0 then -7 else 255) mixedFormat) := by
  refine (vprintf_agrees ?_).mpr ?_ <;> rw [items_mixedFormat]
  · simp only [List.forall_mem_cons, List.not_mem_nil, false_implies, implies_true, and_true]
    exact ⟨⟨by decide, by decide⟩, trivial, (by decide : 0 ≤ (vaInt 255).toInt)⟩
  · simp only [List.forall_mem_cons, List.not_mem_nil, false_implies, implies_true, and_true]
    exact ⟨⟨by decide, by decide⟩, trivial, trivial⟩

/-- `printf("%ld", 4294967296)` prints `4294967296` in the kernel and `0` in a user program. -/
theorem long_truncated :
    (∀ it ∈ items Conv.ld.text, it.Supplied fun _ => 4294967296) ∧
      Kernel.Printf.printf (fun _ => []) (fun _ => 4294967296) Conv.ld.text =
        some [52, 50, 57, 52, 57, 54, 55, 50, 57, 54] ∧
      vprintf (fun _ => []) (fun _ => 4294967296) Conv.ld.text = some [48] := by
  refine ⟨?_, by decide, by decide⟩
  have hitems : items Conv.ld.text = [.conv .ld 0] := by decide
  rw [hitems, List.forall_mem_singleton]
  exact ⟨by decide, by decide⟩

end Xv6Boot.User.Printf
