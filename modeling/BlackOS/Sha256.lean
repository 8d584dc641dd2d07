import BlackOS.Library.Sha2

/-! The streaming SHA-256 of `rust/black_crypto`. A buffer write out of range panics;
a panic, and a loop that does not end, is `none`. The context also records each buffer
write, as the value of `black_buflen` before it and the index written. -/
namespace BlackOS.Sha256
open BlackOS.Library.Ram
open BlackOS.Library.Sha2 (Working)

def blackSha256K : List Word := [
  0x428a2f98,0x71374491,0xb5c0fbcf,0xe9b5dba5,0x3956c25b,0x59f111f1,0x923f82a4,0xab1c5ed5,
  0xd807aa98,0x12835b01,0x243185be,0x550c7dc3,0x72be5d74,0x80deb1fe,0x9bdc06a7,0xc19bf174,
  0xe49b69c1,0xefbe4786,0x0fc19dc6,0x240ca1cc,0x2de92c6f,0x4a7484aa,0x5cb0a9dc,0x76f988da,
  0x983e5152,0xa831c66d,0xb00327c8,0xbf597fc7,0xc6e00bf3,0xd5a79147,0x06ca6351,0x14292967,
  0x27b70a85,0x2e1b2138,0x4d2c6dfc,0x53380d13,0x650a7354,0x766a0abb,0x81c2c92e,0x92722c85,
  0xa2bfe8a1,0xa81a664b,0xc24b8b70,0xc76c51a3,0xd192e819,0xd6990624,0xf40e3585,0x106aa070,
  0x19a4c116,0x1e376c08,0x2748774c,0x34b0bcb5,0x391c0cb3,0x4ed8aa4a,0x5b9cca4f,0x682e6ff3,
  0x748f82ee,0x78a5636f,0x84c87814,0x8cc70208,0x90befffa,0xa4506ceb,0xbef9a3f7,0xc67178f2]

structure Ctx where
  state : Vector Word 8
  buffer : Vector Byte 64
  buflen : Nat
  total : BitVec 64
  writes : List (Nat × Nat)

def blackRotr (x : Word) (n : Nat) : Word := x >>> n ||| x <<< (32 - n)

def blackCh (x y z : Word) : Word := (x &&& y) ^^^ (~~~x &&& z)

def blackMaj (x y z : Word) : Word := (x &&& y) ^^^ (x &&& z) ^^^ (y &&& z)

def blackSigma0 (x : Word) : Word := blackRotr x 2 ^^^ blackRotr x 13 ^^^ blackRotr x 22

def blackSigma1 (x : Word) : Word := blackRotr x 6 ^^^ blackRotr x 11 ^^^ blackRotr x 25

def blackGamma0 (x : Word) : Word := blackRotr x 7 ^^^ blackRotr x 18 ^^^ x >>> 3

def blackGamma1 (x : Word) : Word := blackRotr x 17 ^^^ blackRotr x 19 ^^^ x >>> 10

def blockWord (block : Vector Byte 64) (i : Nat) : Word :=
  block[i * 4]!.setWidth 32 <<< 24 ||| block[i * 4 + 1]!.setWidth 32 <<< 16 |||
    block[i * 4 + 2]!.setWidth 32 <<< 8 ||| block[i * 4 + 3]!.setWidth 32

/-- The first loop of the transform: the block's words. -/
def loadBlock (block : Vector Byte 64) : Vector Word 64 :=
  (List.range 16).foldl (fun w i => w.set! i (blockWord block i)) (Vector.replicate 64 0)

def extendStep (w : Vector Word 64) (i : Nat) : Vector Word 64 :=
  w.set! i (blackGamma1 w[i - 2]! + w[i - 7]! + blackGamma0 w[i - 15]! + w[i - 16]!)

/-- The second loop of the transform, for `i` from 16 to 63. -/
def extendBlock (w : Vector Word 64) : Vector Word 64 := (List.range' 16 48).foldl extendStep w

def roundStep (w : Vector Word 64) (v : Working) (i : Nat) : Working :=
  let t1 := v.h + blackSigma1 v.e + blackCh v.e v.f v.g + blackSha256K[i]! + w[i]!
  let t2 := blackSigma0 v.a + blackMaj v.a v.b v.c
  {h := v.g,g := v.f,f := v.e,e := v.d + t1,d := v.c,c := v.b,b := v.a,a := t1 + t2}

def blackSha256Transform (s : Vector Word 8) (block : Vector Byte 64) : Vector Word 8 :=
  let w := extendBlock (loadBlock block)
  let v := (List.range 64).foldl (roundStep w) ⟨s[0],s[1],s[2],s[3],s[4],s[5],s[6],s[7]⟩
  #v[s[0] + v.a,s[1] + v.b,s[2] + v.c,s[3] + v.d,s[4] + v.e,s[5] + v.f,s[6] + v.g,s[7] + v.h]

/-- The eight words of the state as the standard's hash value. -/
def hashValue (s : Vector Word 8) : Working := ⟨s[0],s[1],s[2],s[3],s[4],s[5],s[6],s[7]⟩

/-- `black_ctx.black_buffer[i] = x`. -/
def Ctx.store (ctx : Ctx) (i : Nat) (x : Byte) : Option Ctx :=
  if inside : i < 64 then
    some {ctx with buffer := ctx.buffer.set i x inside,writes := ctx.writes ++ [(ctx.buflen,i)]}
  else none

/-- The transform of the whole buffer, which is then empty. -/
def Ctx.flush (ctx : Ctx) : Ctx :=
  {ctx with state := blackSha256Transform ctx.state ctx.buffer,buflen := 0}

def blackSha256Init : Ctx where
  state := #v[0x6a09e667,0xbb67ae85,0x3c6ef372,0xa54ff53a,0x510e527f,0x9b05688c,0x1f83d9ab,0x5be0cd19]
  buffer := Vector.replicate 64 0
  buflen := 0
  total := 0
  writes := []

/-- The loop that copies part of the data into the buffer. -/
def copyIn (data : List Byte) (offset copy : Nat) (ctx : Ctx) : Option Ctx :=
  (List.range copy).foldlM (fun c i => c.store (c.buflen + i) data[offset + i]!) ctx

/-- The loop of the update, with a bound on its rounds. -/
def updateLoop (data : List Byte) : Nat → Ctx → Nat → Nat → Option Ctx
  | _,ctx,_,0 => some ctx
  | 0,_,_,_ + 1 => none
  | fuel + 1,ctx,offset,remaining => do
    let space := 64 - ctx.buflen
    let copy := if remaining < space then remaining else space
    let c ← copyIn data offset copy ctx
    let c := {c with buflen := c.buflen + copy,total := c.total + BitVec.ofNat 64 copy}
    updateLoop data fuel (if c.buflen = 64 then c.flush else c) (offset + copy) (remaining - copy)

def blackSha256Update (ctx : Ctx) (data : List Byte) : Option Ctx :=
  updateLoop data data.length ctx 0 data.length

/-- The loops that fill the buffer with zeros up to a limit. -/
def zeroFill (limit : Nat) (ctx : Ctx) : Option Ctx :=
  if ctx.buflen < limit then do
    let c ← ctx.store ctx.buflen 0
    zeroFill limit {c with buflen := ctx.buflen + 1}
  else some ctx
  termination_by limit - ctx.buflen

/-- A block with no room left for the length is filled up and absorbed. -/
def closeBlock (ctx : Ctx) : Option Ctx :=
  if 56 < ctx.buflen then do
    let c ← zeroFill 64 ctx
    return c.flush
  else some ctx

/-- The loop that stores the length in bits in the last eight bytes. -/
def storeLength (bits : BitVec 64) (ctx : Ctx) : Option Ctx :=
  (List.range 8).foldlM (fun c i => c.store (56 + i) ((bits >>> (56 - i * 8)).setWidth 8)) ctx

/-- The bytes of `black_hash`. -/
def hashBytes (s : Vector Word 8) : List Byte :=
  s.toList.flatMap fun x : Word =>
    [(x >>> 24).setWidth 8,(x >>> 16).setWidth 8,(x >>> 8).setWidth 8,x.setWidth 8]

def blackSha256Final (ctx : Ctx) : Option (Ctx × List Byte) := do
  let bits := ctx.total * 8
  let c ← ctx.store ctx.buflen 0x80
  let c := {c with buflen := c.buflen + 1}
  let c ← closeBlock c
  let c ← zeroFill 56 c
  let c ← storeLength bits c
  let c := {c with state := blackSha256Transform c.state c.buffer}
  return (c,hashBytes c.state)

def blackSha256Hash (data : List Byte) : Option (List Byte) := do
  let c ← blackSha256Update blackSha256Init data
  let (_,hash) ← blackSha256Final c
  return hash

/-- A context from `black_sha256_init`, updated with each chunk and then closed. -/
def stream (chunks : List (List Byte)) : Option (Ctx × List Byte) := do
  let c ← chunks.foldlM blackSha256Update blackSha256Init
  blackSha256Final c

end BlackOS.Sha256
