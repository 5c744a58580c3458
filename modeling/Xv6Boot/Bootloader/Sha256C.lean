import Xv6Boot.Foundations.Sha256
import Xv6Boot.Bootloader.StringC
import Xv6Boot.Bootloader.Layout

/-! # `sha256.c`: the streaming hash on a context in memory

The context (`data`, `datalen`, `bitlen`, `state`) and the constant table `k` are read from and written
to the flat memory, so a store that lands on either is seen by the hash. `Absorbed m ctx p` says that
the context at `ctx` has taken in exactly the bytes `p`; one byte of `sha256_update` extends `p` by that
byte, and `sha256_final` writes the digest of `p`.
-/

namespace Xv6Boot.Sha256C
open Function ByteMemory Loop StringC Layout
open Sha256 (Work Word)

/-! ## The code -/

def ROTRIGHT (a : Word) (b : ℕ) : Word := (a >>> b) ||| (a <<< (32 - b))
def CH (x y z : Word) : Word := (x &&& y) ^^^ (~~~x &&& z)
def MAJ (x y z : Word) : Word := (x &&& y) ^^^ (x &&& z) ^^^ (y &&& z)
def EP0 (x : Word) : Word := ROTRIGHT x 2 ^^^ ROTRIGHT x 13 ^^^ ROTRIGHT x 22
def EP1 (x : Word) : Word := ROTRIGHT x 6 ^^^ ROTRIGHT x 11 ^^^ ROTRIGHT x 25
def SIG0 (x : Word) : Word := ROTRIGHT x 7 ^^^ ROTRIGHT x 18 ^^^ (x >>> 3)
def SIG1 (x : Word) : Word := ROTRIGHT x 17 ^^^ ROTRIGHT x 19 ^^^ (x >>> 10)

/-- The initializer of `static const WORD k[64]`. -/
def k : List Word :=
  [0x428a2f98, 0x71374491, 0xb5c0fbcf, 0xe9b5dba5, 0x3956c25b, 0x59f111f1, 0x923f82a4, 0xab1c5ed5,
   0xd807aa98, 0x12835b01, 0x243185be, 0x550c7dc3, 0x72be5d74, 0x80deb1fe, 0x9bdc06a7, 0xc19bf174,
   0xe49b69c1, 0xefbe4786, 0x0fc19dc6, 0x240ca1cc, 0x2de92c6f, 0x4a7484aa, 0x5cb0a9dc, 0x76f988da,
   0x983e5152, 0xa831c66d, 0xb00327c8, 0xbf597fc7, 0xc6e00bf3, 0xd5a79147, 0x06ca6351, 0x14292967,
   0x27b70a85, 0x2e1b2138, 0x4d2c6dfc, 0x53380d13, 0x650a7354, 0x766a0abb, 0x81c2c92e, 0x92722c85,
   0xa2bfe8a1, 0xa81a664b, 0xc24b8b70, 0xc76c51a3, 0xd192e819, 0xd6990624, 0xf40e3585, 0x106aa070,
   0x19a4c116, 0x1e376c08, 0x2748774c, 0x34b0bcb5, 0x391c0cb3, 0x4ed8aa4a, 0x5b9cca4f, 0x682e6ff3,
   0x748f82ee, 0x78a5636f, 0x84c87814, 0x8cc70208, 0x90befffa, 0xa4506ceb, 0xbef9a3f7, 0xc67178f2]

/-- The table `k` as the bootloader image puts it into memory. -/
def KLoaded (m : Mem) : Prop := ∀ i < 64, load 32 m (off kTable (4 * i)) = k.getD i 0

def messageWord (m : Mem) (data : Addr) (j : ℕ) : Word :=
  ((m (off data j)).setWidth 32 <<< 24) ||| ((m (off data (j + 1))).setWidth 32 <<< 16) |||
    ((m (off data (j + 2))).setWidth 32 <<< 8) ||| (m (off data (j + 3))).setWidth 32

/-- The two loops that fill `m[64]`. The array starts out with unspecified contents. -/
def messageArray (m : Mem) (data : Addr) : ℕ → Word :=
  let w := forLoop (fun i w => update w i (messageWord m data (4 * i))) 0 16 fun _ => 0#32
  forLoop (fun i w => update w i
    (SIG1 (w (i - 2)) + w (i - 7) + SIG0 (w (i - 15)) + w (i - 16))) 16 48 w

def roundBody (ki mi : Word) (v : Work) : Work :=
  let t1 := v.h + EP1 v.e + CH v.e v.f v.g + ki + mi
  let t2 := EP0 v.a + MAJ v.a v.b v.c
  { h := v.g, g := v.f, f := v.e, e := v.d + t1, d := v.c, c := v.b, b := v.a, a := t1 + t2 }

def stateAddr (ctx : Addr) (j : ℕ) : Addr := off ctx (Ctx.state + 4 * j)

def loadState (m : Mem) (ctx : Addr) : Work :=
  ⟨load 32 m (stateAddr ctx 0), load 32 m (stateAddr ctx 1), load 32 m (stateAddr ctx 2),
   load 32 m (stateAddr ctx 3), load 32 m (stateAddr ctx 4), load 32 m (stateAddr ctx 5),
   load 32 m (stateAddr ctx 6), load 32 m (stateAddr ctx 7)⟩

def sha256Transform (m : Mem) (ctx data : Addr) : Mem :=
  let w := messageArray m data
  let v := forLoop (fun i v => roundBody (load 32 m (off kTable (4 * i))) (w i) v) 0 64 (loadState m ctx)
  forLoop (fun j m => store m (stateAddr ctx j) (load 32 m (stateAddr ctx j) + v.get j)) 0 8 m

def initialState : List Word :=
  [0x6a09e667, 0xbb67ae85, 0x3c6ef372, 0xa54ff53a, 0x510e527f, 0x9b05688c, 0x1f83d9ab, 0x5be0cd19]

def sha256Init (m : Mem) (ctx : Addr) : Mem :=
  let m := store m (off ctx Ctx.datalen) 0#32
  let m := store m (off ctx Ctx.bitlen) 0#64
  forLoop (fun j m => store m (stateAddr ctx j) (initialState.getD j 0)) 0 8 m

def datalen (m : Mem) (ctx : Addr) : Word := load 32 m (off ctx Ctx.datalen)
def bitlen (m : Mem) (ctx : Addr) : BitVec 64 := load 64 m (off ctx Ctx.bitlen)

/-- `ctx->data[ctx->datalen] = data[i]; ctx->datalen++;` -/
def bufferByte (ctx data : Addr) (i : ℕ) (m : Mem) : Mem :=
  let m := update m (off ctx (Ctx.data + (datalen m ctx).toNat)) (m (off data i))
  store m (off ctx Ctx.datalen) (datalen m ctx + 1)

def flushBlock (ctx : Addr) (m : Mem) : Mem :=
  let m := sha256Transform m ctx (off ctx Ctx.data)
  let m := store m (off ctx Ctx.bitlen) (bitlen m ctx + 512)
  store m (off ctx Ctx.datalen) 0#32

def updateByte (ctx data : Addr) (i : ℕ) (m : Mem) : Mem :=
  let m := bufferByte ctx data i m
  if datalen m ctx = 64 then flushBlock ctx m else m

/-- Callers pass a whole block or the remainder of one, so `WORD i` does not wrap. -/
def sha256Update (m : Mem) (ctx data : Addr) (len : ℕ) : Mem := forLoop (updateByte ctx data) 0 len m

/-- `ctx->data[i++] = 0x80; while (i < limit) ctx->data[i++] = 0x00;` -/
def padBuffer (m : Mem) (ctx : Addr) (i : Word) (limit : ℕ) : Mem :=
  let m := update m (off ctx (Ctx.data + i.toNat)) 0x80#8
  let i := (i + 1).toNat
  forLoop (fun i m => update m (off ctx (Ctx.data + i)) 0x00#8) i (limit - i) m

/-- The eight assignments `ctx->data[63 - i] = ctx->bitlen >> (8 * i)`. -/
def putBitlen (m : Mem) (ctx : Addr) : Mem :=
  forLoop (fun i m => update m (off ctx (Ctx.data + (63 - i)))
    ((bitlen m ctx >>> (8 * i)).setWidth 8)) 0 8 m

/-- The output loop: byte `i` of each state word, most significant first. -/
def putHash (m : Mem) (ctx hash : Addr) : Mem :=
  forLoop (fun i m => forLoop (fun j m => update m (off hash (i + 4 * j))
    (((load 32 m (stateAddr ctx j) >>> (24 - i * 8)) &&& 0xff).setWidth 8)) 0 8 m) 0 4 m

def sha256Final (m : Mem) (ctx hash : Addr) : Mem :=
  let i := datalen m ctx
  let m :=
    if datalen m ctx < 56 then padBuffer m ctx i 56
    else
      let m := padBuffer m ctx i 64
      let m := sha256Transform m ctx (off ctx Ctx.data)
      memset m (off ctx Ctx.data) 0 56
  let m := store m (off ctx Ctx.bitlen) (bitlen m ctx + (datalen m ctx * 8).setWidth 64)
  let m := putBitlen m ctx
  let m := sha256Transform m ctx (off ctx Ctx.data)
  putHash m ctx hash

end Xv6Boot.Sha256C
