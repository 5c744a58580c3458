import Xv6Boot.Foundations.ByteMemory
import Xv6Boot.Foundations.Numeral

/-! # `printf.c`

A format is a list of bytes, read as zero behind its end. The arguments are words, one after the other, and `str` gives
the bytes of the string at an address. The result is what is sent to the console; there is none if `printint` stores
outside of its buffer.
-/

namespace Xv6Boot.Kernel.Printf
open ByteMemory Numeral

/-! ## Conversions -/

inductive Conv
  | d | ld | lld | u | lu | llu | x | lx | llx | p | s | percent
  | unknown (c : Byte)
deriving DecidableEq

/-- `c0`, `c1` and `c2` are the characters after the `%`, up to the first NUL. -/
def conversion (c0 c1 c2 : Byte) : Conv :=
  if c0 = 100 then .d
  else if c0 = 108 ∧ c1 = 100 then .ld
  else if c0 = 108 ∧ c1 = 108 ∧ c2 = 100 then .lld
  else if c0 = 117 then .u
  else if c0 = 108 ∧ c1 = 117 then .lu
  else if c0 = 108 ∧ c1 = 108 ∧ c2 = 117 then .llu
  else if c0 = 120 then .x
  else if c0 = 108 ∧ c1 = 120 then .lx
  else if c0 = 108 ∧ c1 = 108 ∧ c2 = 120 then .llx
  else if c0 = 112 then .p
  else if c0 = 115 then .s
  else if c0 = 37 then .percent
  else .unknown c0

namespace Conv

/-- What is added to `i` for the letters after `c0`. -/
def extra : Conv → ℕ
  | .ld | .lu | .lx => 1
  | .lld | .llu | .llx => 2
  | _ => 0

/-- Whether `va_arg` is called. -/
def takes : Conv → Bool
  | .percent | .unknown _ => false
  | _ => true

end Conv

/-- `va_arg(ap, int)` -/
def vaInt (w : BitVec 64) : BitVec 32 := w.setWidth 32

/-- `fmt[i]`, or 0 after a NUL -/
def lookAhead (fmt : List Byte) (i : ℕ) (before : Byte) : Byte := if before ≠ 0 then fmt.getD i 0 else 0

/-- `"(null)"` -/
def nullText : List Byte := [40, 110, 117, 108, 108, 41]

/-! ## The kernel's printers -/

def digits : List Byte := [48, 49, 50, 51, 52, 53, 54, 55, 56, 57, 97, 98, 99, 100, 101, 102]

def digit (i : ℕ) : Byte := digits.getD i 0

def printint (xx : BitVec 64) (base : ℕ) (sign : Bool) : Option (List Byte) :=
  let sign := sign && decide (xx.toInt < 0)
  let x := if sign then -xx else xx
  printThrough digit 45 16 base x.toNat sign

def printptr (x : BitVec 64) : List Byte :=
  48 :: 120 :: (List.range 16).map fun i => digit ((x <<< (4 * i)) >>> 60).toNat

section
variable (str : Addr → List Byte)

def convert (w : BitVec 64) : Conv → Option (List Byte)
  | .d => printint ((vaInt w).signExtend 64) 10 true
  | .ld | .lld => printint w 10 true
  | .u => printint ((vaInt w).signExtend 64) 10 false
  | .lu | .llu => printint w 10 false
  | .x => printint ((vaInt w).signExtend 64) 16 false
  | .lx | .llx => printint w 16 false
  | .p => some (printptr w)
  | .s => some (if w = 0 then nullText else str w)
  | .percent => some [37]
  | .unknown c => some [37, c]

variable (ap : ℕ → BitVec 64) (fmt : List Byte)

/-- `for(i = 0; (cx = fmt[i] & 0xff) != 0; i++)`; `n` arguments have been taken. -/
def printfLoop : ℕ → ℕ → ℕ → Option (List Byte)
  | 0, _, _ => none
  | turns + 1, i, n =>
    let cx := fmt.getD i 0
    if cx = 0 then some []
    else if cx ≠ 37 then (printfLoop turns (i + 1) n).map (cx :: ·)
    else
      let i := i + 1
      let c0 := fmt.getD i 0
      let c1 := lookAhead fmt (i + 1) c0
      let c2 := lookAhead fmt (i + 2) c1
      if c0 = 0 then some []
      else do
        let c := conversion c0 c1 c2
        let out ← convert str (ap n) c
        let rest ← printfLoop turns (i + c.extra + 1) (if c.takes then n + 1 else n)
        return out ++ rest

def printf : Option (List Byte) := printfLoop str ap fmt (fmt.length + 1) 0 0

end

/-! ## Numerals -/

theorem digit_ne_minus {i : ℕ} (h : i < 16) : digit i ≠ 45 := by
  revert i
  decide

theorem idxOf_digit {i : ℕ} (h : i < 16) : digits.idxOf (digit i) = i := by
  revert i
  decide

def intNumeral (b : ℕ) (z : ℤ) : List Byte := signed digit 45 b z.natAbs (decide (z < 0))

theorem intNumeral_natCast (b n : ℕ) : intNumeral b n = (numeral b n).map digit := by
  simp [intNumeral, signed]

theorem neg_toNat {w : ℕ} {x : BitVec w} (h : x.toInt < 0) : (-x).toNat = x.toInt.natAbs := by
  have hlt := x.isLt
  have hpos := Nat.two_pow_pos w
  rw [BitVec.toInt_eq_toNat_cond] at h ⊢
  split at h
  · omega
  · next hge =>
    rw [BitVec.toNat_neg, if_neg hge, Nat.mod_eq_of_lt (by omega)]
    omega

theorem printint_signed (xx : BitVec 64) {base : ℕ} (hb : 1 < base) :
    printint xx base true =
      if (intNumeral base xx.toInt).length ≤ 16 then some (intNumeral base xx.toInt) else none := by
  unfold printint
  rw [Bool.true_and]
  by_cases hneg : xx.toInt < 0
  · simp only [hneg, decide_true, if_true, printThrough_eq digit 45 hb, neg_toNat hneg, intNumeral]
  · have hnat : xx.toNat = xx.toInt.natAbs := by
      have := xx.isLt
      rw [BitVec.toInt_eq_toNat_cond] at *
      split <;> omega
    simp only [hneg, decide_false, Bool.false_eq_true, if_false, printThrough_eq digit 45 hb, hnat, intNumeral]

theorem printint_unsigned (xx : BitVec 64) {base : ℕ} (hb : 1 < base) :
    printint xx base false =
      if (numeral base xx.toNat).length ≤ 16 then some ((numeral base xx.toNat).map digit) else none := by
  unfold printint
  simp only [Bool.false_and, Bool.false_eq_true, if_false, printThrough_eq digit 45 hb]
  simp [signed]

theorem intNumeral_length_le {b k : ℕ} {z : ℤ} (hb : 1 < b) (hk : 0 < k) :
    (intNumeral b z).length ≤ k + 1 ↔ -(b : ℤ) ^ k < z ∧ z < (b : ℤ) ^ (k + 1) := by
  have hpos : (0 : ℤ) < (b : ℤ) ^ k := pow_pos (by omega) k
  have hpos' : (0 : ℤ) < (b : ℤ) ^ (k + 1) := pow_pos (by omega) (k + 1)
  by_cases hneg : z < 0
  · have hlen : (intNumeral b z).length = (numeral b z.natAbs).length + 1 := by simp [intNumeral, signed, hneg]
    rw [hlen, Nat.add_le_add_iff_right, numeral_length_le hb hk, ← Int.ofNat_lt, Int.ofNat_natAbs_of_nonpos hneg.le,
      Nat.cast_pow]
    omega
  · have hlen : (intNumeral b z).length = (numeral b z.natAbs).length := by simp [intNumeral, signed, hneg]
    rw [hlen, numeral_length_le hb k.add_one_pos, ← Int.ofNat_lt, Int.natAbs_of_nonneg (by omega), Nat.cast_pow]
    omega

theorem map_digit_inj {b n m : ℕ} (hb : 1 < b) (hle : b ≤ 16)
    (h : (numeral b n).map digit = (numeral b m).map digit) : n = m := by
  have hback : ∀ x, ((numeral b x).map digit).map digits.idxOf = numeral b x := by
    intro x
    rw [List.map_map, List.map_congr_left (g := id), List.map_id]
    exact fun i hi => idxOf_digit ((numeral_lt hb hi).trans_le hle)
  exact numeral_inj (by rw [← hback n, h, hback m])

theorem signExtend_toNat (x : BitVec 32) :
    (x.signExtend 64).toNat = if x.toNat < 2 ^ 31 then x.toNat else x.toNat + (2 ^ 64 - 2 ^ 32) := by
  have hlt := x.isLt
  rw [BitVec.toNat_signExtend, BitVec.msb_eq_decide, BitVec.toNat_setWidth, Nat.mod_eq_of_lt (by omega)]
  by_cases h : x.toNat < 2 ^ 31
  · rw [if_pos h, if_neg (by simpa using h), Nat.add_zero]
  · rw [if_neg h, if_pos (by simpa using h)]

/-! ## The nine number conversions -/

namespace Conv

def IsNumber : Conv → Prop
  | .d | .ld | .lld | .u | .lu | .llu | .x | .lx | .llx => True
  | _ => False

def text : Conv → List Byte
  | .d => [37, 100]
  | .ld => [37, 108, 100]
  | .lld => [37, 108, 108, 100]
  | .u => [37, 117]
  | .lu => [37, 108, 117]
  | .llu => [37, 108, 108, 117]
  | .x => [37, 120]
  | .lx => [37, 108, 120]
  | .llx => [37, 108, 108, 120]
  | .p => [37, 112]
  | .s => [37, 115]
  | .percent => [37, 37]
  | .unknown c => [37, c]

/-- The numeral of an argument of the conversion's type: `int`, `unsigned int`, or 64 bits. -/
def canonical (w : BitVec 64) : Conv → List Byte
  | .d => intNumeral 10 (vaInt w).toInt
  | .ld | .lld => intNumeral 10 w.toInt
  | .u => (numeral 10 (vaInt w).toNat).map digit
  | .lu | .llu => (numeral 10 w.toNat).map digit
  | .x => (numeral 16 (vaInt w).toNat).map digit
  | .lx | .llx => (numeral 16 w.toNat).map digit
  | _ => []

def Printable (w : BitVec 64) : Conv → Prop
  | .ld | .lld => -10 ^ 15 < w.toInt ∧ w.toInt < 10 ^ 16
  | .lu | .llu => w.toNat < 10 ^ 16
  | .u | .x => (vaInt w).toNat < 2 ^ 31
  | _ => True

end Conv

variable {str : Addr → List Byte} {ap : ℕ → BitVec 64} {w : BitVec 64} {c : Conv}

theorem printf_text (hc : c.IsNumber) : printf str ap c.text = convert str (ap 0) c := by
  cases c with
  | p | s | percent | unknown => exact hc.elim
  | _ =>
    rw [printf]
    simp [Conv.text, printfLoop, lookAhead, conversion, Conv.extra]

theorem convert_d : convert str w .d = some (intNumeral 10 (vaInt w).toInt) := by
  have hlow := BitVec.le_toInt (vaInt w)
  have hhigh := BitVec.toInt_lt (x := vaInt w)
  rw [convert, printint_signed _ (by decide), BitVec.toInt_signExtend_of_le (by decide), if_pos]
  rw [intNumeral_length_le (k := 15) (by decide) (by decide)]
  constructor <;> norm_num <;> omega

theorem printint_decimal :
    printint w 10 true = some (intNumeral 10 w.toInt) ↔ -10 ^ 15 < w.toInt ∧ w.toInt < 10 ^ 16 := by
  rw [printint_signed _ (by decide), Option.ite_none_right_eq_some, Option.some_inj,
    intNumeral_length_le (k := 15) (by decide) (by decide)]
  simp

theorem printint_udecimal : printint w 10 false = some ((numeral 10 w.toNat).map digit) ↔ w.toNat < 10 ^ 16 := by
  rw [printint_unsigned _ (by decide), Option.ite_none_right_eq_some, Option.some_inj,
    numeral_length_le (by decide) (by decide)]
  simp

theorem printint_hex : printint w 16 false = some ((numeral 16 w.toNat).map digit) := by
  have := w.isLt
  rw [printint_unsigned _ (by decide), if_pos]
  rw [numeral_length_le (by decide) (by decide)]
  omega

theorem convert_u : convert str w .u = some ((numeral 10 (vaInt w).toNat).map digit) ↔ (vaInt w).toNat < 2 ^ 31 := by
  have hlt := (vaInt w).isLt
  rw [convert, printint_unsigned _ (by decide), Option.ite_none_right_eq_some, Option.some_inj,
    numeral_length_le (by decide) (by decide), signExtend_toNat]
  split
  · next h => exact iff_of_true ⟨by omega, rfl⟩ h
  · next h => exact iff_of_false (fun hbad => by omega) h

theorem convert_x : convert str w .x = some ((numeral 16 (vaInt w).toNat).map digit) ↔ (vaInt w).toNat < 2 ^ 31 := by
  rw [convert, printint_hex, Option.some_inj, signExtend_toNat]
  split
  · next h => exact iff_of_true rfl h
  · next h => exact iff_of_false (fun hbad => absurd (map_digit_inj (by decide) le_rfl hbad) (by omega)) h

/-- `printint` stays in its buffer and prints the canonical numeral of the argument exactly for the printable arguments
of the conversion. -/
theorem printf_number (hc : c.IsNumber) : printf str ap c.text = some (c.canonical (ap 0)) ↔ c.Printable (ap 0) := by
  rw [printf_text hc]
  cases c with
  | d => exact iff_of_true convert_d trivial
  | ld | lld => exact printint_decimal
  | u => exact convert_u
  | lu | llu => exact printint_udecimal
  | x => exact convert_x
  | lx | llx => exact iff_of_true printint_hex trivial
  | p | s | percent | unknown => exact hc.elim

/-- `printf("%ld", 15)` prints 15. -/
theorem printf_fifteen : printf (fun _ => []) (fun _ => 15) Conv.ld.text = some (Conv.ld.canonical 15) :=
  (@printf_number (fun _ => []) (fun _ => 15) .ld trivial).mpr ⟨by decide, by decide⟩

/-- The most negative word has nineteen digits and a sign; the seventeenth store is outside of `buf`. -/
theorem printf_most_negative : printf (fun _ => []) (fun _ => BitVec.intMin 64) Conv.lld.text = none := by
  decide

end Xv6Boot.Kernel.Printf
