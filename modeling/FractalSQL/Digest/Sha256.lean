import FractalSQL.Lib.Bytes
import FractalSQL.Lib.IteratedHash

/-!
# SHA-256 and HMAC-SHA256

`fractalsql_hmac.h` and its copy `fsq_sha256.h`: a context with a 64-byte buffer that is
stored into byte by byte, compressed when it is full, padded in place at the end. The
two headers differ in the names of their functions and have a table of constants each.
A context on the stack starts with whatever its memory holds. The loop of the update
counts in 32 bits up to a length of 64 bits.
-/
namespace FractalSQL.Digest
open Lib

/-- `state[0]` to `state[7]`, and the working variables of the rounds. -/
@[ext] structure State where
  (a b c d e f g h : UInt32)
deriving DecidableEq

def rotr (a b : UInt32) : UInt32 := (a >>> b) ||| (a <<< (32 - b))
def ep0 (x : UInt32) : UInt32 := rotr x 2 ^^^ rotr x 13 ^^^ rotr x 22
def ep1 (x : UInt32) : UInt32 := rotr x 6 ^^^ rotr x 11 ^^^ rotr x 25
def sig0 (x : UInt32) : UInt32 := rotr x 7 ^^^ rotr x 18 ^^^ (x >>> 3)
def sig1 (x : UInt32) : UInt32 := rotr x 17 ^^^ rotr x 19 ^^^ (x >>> 10)
def ch (x y z : UInt32) : UInt32 := (x &&& y) ^^^ (~~~x &&& z)
def maj (x y z : UInt32) : UInt32 := (x &&& y) ^^^ (x &&& z) ^^^ (y &&& z)

/-- The table of `fractalsql_hmac.h`. -/
def fsqlSha256K : List UInt32 := [
  0x428a2f98, 0x71374491, 0xb5c0fbcf, 0xe9b5dba5, 0x3956c25b, 0x59f111f1, 0x923f82a4, 0xab1c5ed5,
  0xd807aa98, 0x12835b01, 0x243185be, 0x550c7dc3, 0x72be5d74, 0x80deb1fe, 0x9bdc06a7, 0xc19bf174,
  0xe49b69c1, 0xefbe4786, 0x0fc19dc6, 0x240ca1cc, 0x2de92c6f, 0x4a7484aa, 0x5cb0a9dc, 0x76f988da,
  0x983e5152, 0xa831c66d, 0xb00327c8, 0xbf597fc7, 0xc6e00bf3, 0xd5a79147, 0x06ca6351, 0x14292967,
  0x27b70a85, 0x2e1b2138, 0x4d2c6dfc, 0x53380d13, 0x650a7354, 0x766a0abb, 0x81c2c92e, 0x92722c85,
  0xa2bfe8a1, 0xa81a664b, 0xc24b8b70, 0xc76c51a3, 0xd192e819, 0xd6990624, 0xf40e3585, 0x106aa070,
  0x19a4c116, 0x1e376c08, 0x2748774c, 0x34b0bcb5, 0x391c0cb3, 0x4ed8aa4a, 0x5b9cca4f, 0x682e6ff3,
  0x748f82ee, 0x78a5636f, 0x84c87814, 0x8cc70208, 0x90befffa, 0xa4506ceb, 0xbef9a3f7, 0xc67178f2]

/-- The table of `fsq_sha256.h`. -/
def fsqSha256K : List UInt32 := [
  0x428a2f98, 0x71374491, 0xb5c0fbcf, 0xe9b5dba5, 0x3956c25b, 0x59f111f1, 0x923f82a4, 0xab1c5ed5,
  0xd807aa98, 0x12835b01, 0x243185be, 0x550c7dc3, 0x72be5d74, 0x80deb1fe, 0x9bdc06a7, 0xc19bf174,
  0xe49b69c1, 0xefbe4786, 0x0fc19dc6, 0x240ca1cc, 0x2de92c6f, 0x4a7484aa, 0x5cb0a9dc, 0x76f988da,
  0x983e5152, 0xa831c66d, 0xb00327c8, 0xbf597fc7, 0xc6e00bf3, 0xd5a79147, 0x06ca6351, 0x14292967,
  0x27b70a85, 0x2e1b2138, 0x4d2c6dfc, 0x53380d13, 0x650a7354, 0x766a0abb, 0x81c2c92e, 0x92722c85,
  0xa2bfe8a1, 0xa81a664b, 0xc24b8b70, 0xc76c51a3, 0xd192e819, 0xd6990624, 0xf40e3585, 0x106aa070,
  0x19a4c116, 0x1e376c08, 0x2748774c, 0x34b0bcb5, 0x391c0cb3, 0x4ed8aa4a, 0x5b9cca4f, 0x682e6ff3,
  0x748f82ee, 0x78a5636f, 0x84c87814, 0x8cc70208, 0x90befffa, 0xa4506ceb, 0xbef9a3f7, 0xc67178f2]

/-- `m[i]` for the first sixteen words. -/
def firstWord (data : Bytes) (i : ℕ) : UInt32 :=
  (data.getD (4 * i) 0).toUInt32 <<< 24 ||| (data.getD (4 * i + 1) 0).toUInt32 <<< 16 |||
    (data.getD (4 * i + 2) 0).toUInt32 <<< 8 ||| (data.getD (4 * i + 3) 0).toUInt32

/-- One more word of `m`. -/
def extend (m : List UInt32) : List UInt32 :=
  m ++ [sig1 (m.getD (m.length - 2) 0) + m.getD (m.length - 7) 0 + sig0 (m.getD (m.length - 15) 0) +
    m.getD (m.length - 16) 0]

def schedule (data : Bytes) : List UInt32 := extend^[48] ((List.range 16).map (firstWord data))

/-- One turn of the loop over `i < 64`, with `k[i]` and `m[i]`. -/
def round (s : State) (km : UInt32 × UInt32) : State :=
  let t1 := s.h + ep1 s.e + ch s.e s.f s.g + km.1 + km.2
  let t2 := ep0 s.a + maj s.a s.b s.c
  ⟨t1 + t2, s.a, s.b, s.c, s.d + t1, s.e, s.f, s.g⟩

section Table
variable (k : List UInt32)

/-- `sha256_transform`: what it leaves in the state. -/
def transform (s : State) (data : Bytes) : State :=
  let r := (k.zip (schedule data)).foldl round s
  ⟨s.a + r.a, s.b + r.b, s.c + r.c, s.d + r.d, s.e + r.e, s.f + r.f, s.g + r.g, s.h + r.h⟩

/-- The context between two calls: the buffer is never full. -/
structure Ctx where
  data : Block 64
  datalen : Fin 64
  bitlen : UInt64
  state : State

/-- `data[i] = x`. -/
def setByte {w : ℕ} (data : Block w) (i : ℕ) (x : UInt8) : Block w := ⟨data.val.set i x, by simp⟩

def initialState : State :=
  ⟨0x6a09e667, 0xbb67ae85, 0x3c6ef372, 0xa54ff53a, 0x510e527f, 0x9b05688c, 0x1f83d9ab, 0x5be0cd19⟩

/-- `sha256_init`: the buffer keeps what its memory holds. -/
def Ctx.init (ctx : Ctx) : Ctx := ⟨ctx.data, 0, 0, initialState⟩

/-- The body of the loop of `sha256_update`. -/
def Ctx.push (ctx : Ctx) (b : UInt8) : Ctx :=
  let data := setByte ctx.data ctx.datalen b
  if h : ctx.datalen.val + 1 = 64 then ⟨data, 0, ctx.bitlen + 512, transform k ctx.state data.val⟩
  else ⟨data, ⟨ctx.datalen.val + 1, by omega⟩, ctx.bitlen, ctx.state⟩

/-- The loop of `sha256_update` from `i` on, for at most so many turns. -/
def updateLoop (data : Bytes) : ℕ → UInt32 → Ctx → Option Ctx
  | 0, _, _ => none
  | fuel + 1, i, ctx =>
    if h : i.toNat < data.length then updateLoop data fuel (i + 1) (ctx.push k data[i.toNat]) else some ctx

/-- `sha256_update`. A loop that takes more turns than this takes infinitely many
(`updateLoop_returns_iff`). -/
def Ctx.update (ctx : Ctx) (data : Bytes) : Option Ctx := updateLoop k data (data.length + 1) 0 ctx

/-- `while (i < stop) data[i++] = 0x00`. -/
def zeroUpTo (stop : ℕ) (data : Block 64) (i : ℕ) : Block 64 :=
  if i < stop then zeroUpTo stop (setByte data i 0) (i + 1) else data
termination_by stop - i

/-- `data[63]` to `data[56]`. -/
def putLength (data : Block 64) (bitlen : UInt64) : Block 64 :=
  (List.range 8).foldl (fun data j => setByte data (63 - j) (bitlen >>> (8 * UInt64.ofNat j)).toUInt8) data

/-- The four bytes of a word, the high one first. -/
def wordBytes (x : UInt32) : Bytes := [(x >>> 24).toUInt8, (x >>> 16).toUInt8, (x >>> 8).toUInt8, x.toUInt8]

def output (s : State) : Block 32 :=
  ⟨wordBytes s.a ++ wordBytes s.b ++ wordBytes s.c ++ wordBytes s.d ++ wordBytes s.e ++ wordBytes s.f ++
    wordBytes s.g ++ wordBytes s.h, rfl⟩

/-- `sha256_final`: the hash and the context it leaves. -/
def Ctx.final (ctx : Ctx) : Block 32 × Ctx :=
  let marked := setByte ctx.data ctx.datalen 0x80
  let (data, state) :=
    if ctx.datalen.val < 56 then (zeroUpTo 56 marked (ctx.datalen.val + 1), ctx.state)
    else
      let full := zeroUpTo 64 marked (ctx.datalen.val + 1)
      (zeroUpTo 56 full 0, transform k ctx.state full.val)
  let bitlen := ctx.bitlen + UInt64.ofNat ctx.datalen.val * 8
  let data := putLength data bitlen
  let state := transform k state data.val
  (output state, ⟨data, ctx.datalen, bitlen, state⟩)

/-- The hash of the pieces that are given to `sha256_update`, in order. -/
def hashPieces (ctx : Ctx) (pieces : List Bytes) : Option (Block 32 × Ctx) := do
  let ctx ← pieces.foldlM (Ctx.update k) ctx.init
  return ctx.final k

/-- `sha256`, with the context on its stack. -/
def sha256 (ctx : Ctx) (msg : Bytes) : Option (Block 32) := do
  let (hash, _) ← hashPieces k ctx [msg]
  return hash

/-- `memset`, `memcpy` and the loop that makes a pad of the key. -/
def keyPad (pad : UInt8) (key : Bytes) : Bytes := (key ++ List.replicate (64 - key.length) 0).map (· ^^^ pad)

/-- `if (keylen > 64)`: the key is replaced by its hash. -/
def shortKey (ctx : Ctx) (key : Bytes) : Option (Bytes × Ctx) :=
  if 64 < key.length then (hashPieces k ctx [key]).map fun (tk, ctx) => (tk.val, ctx) else some (key, ctx)

/-- `hmac_sha256`, with the context on its stack. -/
def hmacSha256 (ctx : Ctx) (key msg : Bytes) : Option (Block 32) := do
  let (key, ctx) ← shortKey k ctx key
  let (inner, ctx) ← hashPieces k ctx [keyPad 0x36 key, msg]
  let (out, _) ← hashPieces k ctx [keyPad 0x5c key, inner.val]
  return out

end Table

/-- `fsql_sha256`. -/
def fsqlSha256 : Ctx → Bytes → Option (Block 32) := sha256 fsqlSha256K

/-- `fsql_hmac_sha256`. -/
def fsqlHmacSha256 : Ctx → Bytes → Bytes → Option (Block 32) := hmacSha256 fsqlSha256K

/-- `fsq_sha256`. -/
def fsqSha256 : Ctx → Bytes → Option (Block 32) := sha256 fsqSha256K

/-- `fsq_hmac_sha256`. -/
def fsqHmacSha256 : Ctx → Bytes → Bytes → Option (Block 32) := hmacSha256 fsqSha256K

end FractalSQL.Digest
