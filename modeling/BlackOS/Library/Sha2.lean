import BlackOS.Library.Ram

/-! The SHA-256 hash function of FIPS 180-4 on messages of whole bytes: functions and
constants (4.1.2, 4.2.2), padding (5.1.1), initial hash value (5.3.3) and the hash
computation (6.2). -/
namespace BlackOS.Library.Sha2
open BlackOS.Library.Ram

def ch (x y z : Word) : Word := (x &&& y) ^^^ (~~~x &&& z)

def maj (x y z : Word) : Word := (x &&& y) ^^^ (x &&& z) ^^^ (y &&& z)

def bigSigma0 (x : Word) : Word := x.rotateRight 2 ^^^ x.rotateRight 13 ^^^ x.rotateRight 22

def bigSigma1 (x : Word) : Word := x.rotateRight 6 ^^^ x.rotateRight 11 ^^^ x.rotateRight 25

def smallSigma0 (x : Word) : Word := x.rotateRight 7 ^^^ x.rotateRight 18 ^^^ x >>> 3

def smallSigma1 (x : Word) : Word := x.rotateRight 17 ^^^ x.rotateRight 19 ^^^ x >>> 10

/-- The first 32 bits of the fractional parts of the cube roots of the first 64 primes. -/
def constants : List Word := [
  0x428a2f98,0x71374491,0xb5c0fbcf,0xe9b5dba5,0x3956c25b,0x59f111f1,0x923f82a4,0xab1c5ed5,
  0xd807aa98,0x12835b01,0x243185be,0x550c7dc3,0x72be5d74,0x80deb1fe,0x9bdc06a7,0xc19bf174,
  0xe49b69c1,0xefbe4786,0x0fc19dc6,0x240ca1cc,0x2de92c6f,0x4a7484aa,0x5cb0a9dc,0x76f988da,
  0x983e5152,0xa831c66d,0xb00327c8,0xbf597fc7,0xc6e00bf3,0xd5a79147,0x06ca6351,0x14292967,
  0x27b70a85,0x2e1b2138,0x4d2c6dfc,0x53380d13,0x650a7354,0x766a0abb,0x81c2c92e,0x92722c85,
  0xa2bfe8a1,0xa81a664b,0xc24b8b70,0xc76c51a3,0xd192e819,0xd6990624,0xf40e3585,0x106aa070,
  0x19a4c116,0x1e376c08,0x2748774c,0x34b0bcb5,0x391c0cb3,0x4ed8aa4a,0x5b9cca4f,0x682e6ff3,
  0x748f82ee,0x78a5636f,0x84c87814,0x8cc70208,0x90befffa,0xa4506ceb,0xbef9a3f7,0xc67178f2]

/-- The eight working variables; a hash value is eight words as well. -/
structure Working where
  a : Word
  b : Word
  c : Word
  d : Word
  e : Word
  f : Word
  g : Word
  h : Word

def initial : Working :=
  ⟨0x6a09e667,0xbb67ae85,0x3c6ef372,0xa54ff53a,0x510e527f,0x9b05688c,0x1f83d9ab,0x5be0cd19⟩

/-- The message schedule of a block of sixteen words. -/
def schedule (m : Nat → Word) (t : Nat) : Word :=
  if t < 16 then m t
  else smallSigma1 (schedule m (t - 2)) + schedule m (t - 7) +
    smallSigma0 (schedule m (t - 15)) + schedule m (t - 16)
  termination_by t

def round (w : Nat → Word) (v : Working) (t : Nat) : Working :=
  let t1 := v.h + bigSigma1 v.e + ch v.e v.f v.g + constants[t]! + w t
  let t2 := bigSigma0 v.a + maj v.a v.b v.c
  ⟨t1 + t2,v.a,v.b,v.c,v.d + t1,v.e,v.f,v.g⟩

/-- The next hash value from the last one and a block. -/
def compress (v : Working) (m : Nat → Word) : Working :=
  let r := (List.range 64).foldl (round (schedule m)) v
  ⟨v.a + r.a,v.b + r.b,v.c + r.c,v.d + r.d,v.e + r.e,v.f + r.f,v.g + r.g,v.h + r.h⟩

/-- The words of a block of bytes, big-endian. -/
def words (block : List Byte) (t : Nat) : Word :=
  block[t * 4]! ++ block[t * 4 + 1]! ++ block[t * 4 + 2]! ++ block[t * 4 + 3]!

/-- The hash value after all whole blocks. -/
def absorb (v : Working) (bytes : List Byte) : Working :=
  if 64 ≤ bytes.length then absorb (compress v (words (bytes.take 64))) (bytes.drop 64) else v
  termination_by bytes.length
  decreasing_by
    rw [List.length_drop]
    omega

/-- A number as eight bytes, big-endian. -/
def lengthBytes (n : Nat) : List Byte :=
  (List.range 8).map fun i => BitVec.ofNat 8 (n / 256 ^ (7 - i))

/-- A one bit, zeros up to 8 bytes before the end of a block, and the length in bits. -/
def padding (size : Nat) : List Byte :=
  0x80::List.replicate ((119 - size % 64) % 64) 0 ++ lengthBytes (size * 8)

def wordBytes (w : Word) : List Byte :=
  [w.extractLsb' 24 8,w.extractLsb' 16 8,w.extractLsb' 8 8,w.extractLsb' 0 8]

def digest (v : Working) : List Byte := [v.a,v.b,v.c,v.d,v.e,v.f,v.g,v.h].flatMap wordBytes

def sha256 (message : List Byte) : List Byte :=
  digest (absorb initial (message ++ padding message.length))

theorem schedule_early (m : Nat → Word) (t : Nat) (early : t < 16) : schedule m t = m t := by
  rw [schedule,if_pos early]

theorem schedule_late (m : Nat → Word) (t : Nat) :
    schedule m (t + 16) = smallSigma1 (schedule m (t + 14)) + schedule m (t + 9) +
      smallSigma0 (schedule m (t + 1)) + schedule m t := by
  rw [schedule,if_neg (by omega)]
  rfl

theorem absorb_short (v : Working) (bytes : List Byte) (short : bytes.length < 64) :
    absorb v bytes = v := by
  rw [absorb,if_neg (by omega)]

theorem absorb_block (v : Working) (block rest : List Byte) (whole : block.length = 64) :
    absorb v (block ++ rest) = absorb (compress v (words block)) rest := by
  rw [absorb,if_pos (by rw [List.length_append]; omega),← whole,List.take_left,List.drop_left]

/-- Whole blocks first, then what follows. -/
theorem absorb_append (blocks rest : List Byte) (v : Working) (whole : 64 ∣ blocks.length) :
    absorb v (blocks ++ rest) = absorb (absorb v blocks) rest := by
  induction hn : blocks.length using Nat.strong_induction_on generalizing blocks v with
  | _ n ih =>
    by_cases long : 64 ≤ blocks.length
    · have first : (blocks.take 64).length = 64 := List.length_take_of_le long
      have left : (blocks.drop 64).length = blocks.length - 64 := List.length_drop
      have divides : 64 ∣ (blocks.drop 64).length := by
        rw [left]
        exact Nat.dvd_sub whole (Nat.dvd_refl 64)
      have step := absorb_block v (blocks.take 64) (blocks.drop 64 ++ rest) first
      have alone := absorb_block v (blocks.take 64) (blocks.drop 64) first
      rw [List.take_append_drop] at alone
      rw [← List.append_assoc,List.take_append_drop] at step
      rw [step,alone]
      exact ih _ (by omega) (blocks.drop 64) _ divides rfl
    · have empty : blocks = [] := List.length_eq_zero_iff.mp (by omega)
      rw [empty,List.nil_append,absorb_short v [] (by decide)]

end BlackOS.Library.Sha2
