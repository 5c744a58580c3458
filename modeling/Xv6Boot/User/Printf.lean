import Xv6Boot.Kernel.Printf

/-! # `user/printf.c`

The chain of comparisons that selects a conversion is the one of the kernel's `printf`, and so are the arguments it
takes with `va_arg`. The number printer has an `int` parameter, and the digits are upper case. The result is what is
written to the file.
-/

namespace Xv6Boot.User.Printf
open ByteMemory Numeral Kernel.Printf

/-! ## The user's printers -/

def digits : List Byte := [48, 49, 50, 51, 52, 53, 54, 55, 56, 57, 65, 66, 67, 68, 69, 70]

def digit (i : ℕ) : Byte := digits.getD i 0

def printint (xx : BitVec 32) (base : ℕ) (sgn : Bool) : Option (List Byte) :=
  let neg := sgn && decide (xx.toInt < 0)
  let x := if neg then -xx else xx
  printThrough digit 45 16 base x.toNat neg

def printptr (x : BitVec 64) : List Byte :=
  48 :: 120 :: (List.range 16).map fun i => digit ((x <<< (4 * i)) >>> 60).toNat

section
variable (str : Addr → List Byte)

/-- A `uint64` argument is converted to `printint`'s `int`. -/
def convert (w : BitVec 64) : Conv → Option (List Byte)
  | .d => printint (vaInt w) 10 true
  | .ld | .lld => printint (w.setWidth 32) 10 true
  | .u => printint (vaInt w) 10 false
  | .lu | .llu => printint (w.setWidth 32) 10 false
  | .x => printint (vaInt w) 16 false
  | .lx | .llx => printint (w.setWidth 32) 16 false
  | .p => some (printptr w)
  | .s => some (if w = 0 then nullText else str w)
  | .percent => some [37]
  | .unknown c => some [37, c]

variable (ap : ℕ → BitVec 64) (fmt : List Byte)

/-- `for(i = 0; fmt[i]; i++)`; `percent` is `state == '%'`, and `n` arguments have been taken. -/
def vprintfLoop : ℕ → ℕ → ℕ → Bool → Option (List Byte)
  | 0, _, _, _ => none
  | turns + 1, i, n, percent =>
    let c0 := fmt.getD i 0
    if c0 = 0 then some []
    else if percent = false then
      if c0 = 37 then vprintfLoop turns (i + 1) n true
      else (vprintfLoop turns (i + 1) n false).map (c0 :: ·)
    else do
      let c1 := lookAhead fmt (i + 1) c0
      let c2 := lookAhead fmt (i + 2) c1
      let c := conversion c0 c1 c2
      let out ← convert str (ap n) c
      let rest ← vprintfLoop turns (i + c.extra + 1) (if c.takes then n + 1 else n) false
      return out ++ rest

def vprintf : Option (List Byte) := vprintfLoop str ap fmt (fmt.length + 1) 0 0 false

end

/-! ## The items of a format -/

/-- What a format asks for: a character, or a conversion and the number of arguments taken before it. -/
inductive Item
  | lit (c : Byte)
  | conv (c : Conv) (n : ℕ)
deriving DecidableEq

def itemsFrom (fmt : List Byte) : ℕ → ℕ → ℕ → List Item
  | 0, _, _ => []
  | turns + 1, i, n =>
    let cx := fmt.getD i 0
    if cx = 0 then []
    else if cx ≠ 37 then .lit cx :: itemsFrom fmt turns (i + 1) n
    else
      let c0 := fmt.getD (i + 1) 0
      let c1 := lookAhead fmt (i + 2) c0
      let c := conversion c0 c1 (lookAhead fmt (i + 3) c1)
      if c0 = 0 then []
      else .conv c n :: itemsFrom fmt turns (i + 1 + c.extra + 1) (if c.takes then n + 1 else n)

def items (fmt : List Byte) : List Item := itemsFrom fmt (fmt.length + 1) 0 0

section
variable (convert : BitVec 64 → Conv → Option (List Byte)) (ap : ℕ → BitVec 64)

def Item.emit : Item → Option (List Byte)
  | .lit c => some [c]
  | .conv c n => convert (ap n) c

def emit : List Item → Option (List Byte)
  | [] => some []
  | it :: rest => do
    let out ← it.emit convert ap
    let rest ← emit rest
    return out ++ rest

end

variable {str : Addr → List Byte} {ap : ℕ → BitVec 64} {fmt : List Byte}

theorem lt_length_of_getD {i : ℕ} (h : fmt.getD i 0 ≠ 0) : i < fmt.length := by
  by_contra hge
  exact h (List.getD_eq_default _ _ (Nat.not_lt.mp hge))

theorem emit_lit (convert : BitVec 64 → Conv → Option (List Byte)) (c : Byte) (rest : List Item) :
    emit convert ap (.lit c :: rest) = (emit convert ap rest).map (c :: ·) := by
  rw [emit]
  cases emit convert ap rest <;> rfl

theorem printfLoop_eq {turns i : ℕ} (n : ℕ) (h : fmt.length - i < turns) :
    printfLoop str ap fmt turns i n = emit (Kernel.Printf.convert str) ap (itemsFrom fmt turns i n) := by
  induction turns generalizing i n with
  | zero => omega
  | succ turns ih =>
    rw [printfLoop, itemsFrom]
    by_cases h0 : fmt.getD i 0 = 0
    · rw [if_pos h0, if_pos h0, emit]
    have hi := lt_length_of_getD h0
    rw [if_neg h0, if_neg h0]
    by_cases h37 : fmt.getD i 0 = 37
    · rw [if_neg (not_not.mpr h37), if_neg (not_not.mpr h37)]
      by_cases hend : fmt.getD (i + 1) 0 = 0
      · rw [if_pos hend, if_pos hend, emit]
      · rw [if_neg hend, if_neg hend, emit, ← ih _ (by omega)]
        rfl
    · rw [if_pos h37, if_pos h37, ih n (by omega), emit_lit]

theorem vprintfLoop_eq {k i : ℕ} (turns n : ℕ) (h : fmt.length - i < turns) (hk : fmt.length - i < k) :
    vprintfLoop str ap fmt turns i n false = emit (convert str) ap (itemsFrom fmt k i n) := by
  induction k generalizing turns i n with
  | zero => omega
  | succ k ih =>
    obtain ⟨turns, rfl⟩ : ∃ t, turns = t + 1 := ⟨turns - 1, by omega⟩
    rw [vprintfLoop, itemsFrom]
    by_cases h0 : fmt.getD i 0 = 0
    · rw [if_pos h0, if_pos h0, emit]
    have hi := lt_length_of_getD h0
    rw [if_neg h0, if_neg h0, if_pos rfl]
    by_cases h37 : fmt.getD i 0 = 37
    · obtain ⟨turns, rfl⟩ : ∃ t, turns = t + 1 := ⟨turns - 1, by omega⟩
      rw [if_pos h37, if_neg (not_not.mpr h37), vprintfLoop]
      by_cases hend : fmt.getD (i + 1) 0 = 0
      · rw [if_pos hend, if_pos hend, emit]
      · have hi' := lt_length_of_getD hend
        rw [if_neg hend, if_neg hend, if_neg (by decide), emit, ← ih turns _ (by omega) (by omega)]
        rfl
    · rw [if_neg h37, if_pos h37, ih turns n (by omega) (by omega), emit_lit]

theorem printf_eq : Kernel.Printf.printf str ap fmt = emit (Kernel.Printf.convert str) ap (items fmt) :=
  printfLoop_eq 0 (by omega)

theorem vprintf_eq : vprintf str ap fmt = emit (convert str) ap (items fmt) :=
  vprintfLoop_eq _ 0 (by omega) (by omega)

end Xv6Boot.User.Printf
