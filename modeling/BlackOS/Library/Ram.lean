import Mathlib.Data.BitVec
import Mathlib.Tactic.Common

/-! Flat byte memory over the 32-bit address circle, with little-endian words.
Address ranges are stated over the natural numbers; a range that does not run
past the last address is where word arithmetic and natural arithmetic agree. -/
namespace BlackOS.Library.Ram

abbrev Byte := BitVec 8
abbrev Word := BitVec 32
abbrev Memory := Word → Byte

/-- The word for a natural number; exact below `2^32`. -/
def word (n : Nat) : Word := BitVec.ofNat 32 n

theorem word_toNat (n : Nat) (small : n < 2^32) : (word n).toNat = n := by
  simp only [word,BitVec.toNat_ofNat]
  omega

@[simp] theorem toNat_word (a : Word) : word a.toNat = a := by
  simp [word]

theorem word_add (a n : Nat) : word a + word n = word (a+n) := by
  apply BitVec.eq_of_toNat_eq
  simp [word]

theorem word_injective (a b : Nat) (left : a < 2^32) (right : b < 2^32)
    (equal : word a = word b) : a = b := by
  have values := congrArg BitVec.toNat equal
  rwa [word_toNat a left,word_toNat b right] at values

def write8 (m : Memory) (a : Word) (v : Byte) : Memory := fun x => if x = a then v else m x

def byteOf (v : Word) (k : Nat) : Byte := BitVec.ofNat 8 (v.toNat / 256^k)

def read32 (m : Memory) (a : Word) : Word :=
  BitVec.ofNat 32 ((m a).toNat + 256 * (m (a+1)).toNat + 65536 * (m (a+2)).toNat +
    16777216 * (m (a+3)).toNat)

def write32 (m : Memory) (a v : Word) : Memory :=
  write8 (write8 (write8 (write8 m a (byteOf v 0)) (a+1) (byteOf v 1)) (a+2) (byteOf v 2))
    (a+3) (byteOf v 3)

theorem read32_write32 (m : Memory) (a v : Word) : read32 (write32 m a v) a = v := by
  have bound := v.isLt
  have first : write32 m a v a = byteOf v 0 := by
    simp [write32,write8]
  have second : write32 m a v (a+1) = byteOf v 1 := by
    simp [write32,write8]
  have third : write32 m a v (a+2) = byteOf v 2 := by
    simp [write32,write8]
  have fourth : write32 m a v (a+3) = byteOf v 3 := by
    simp [write32,write8]
  apply BitVec.eq_of_toNat_eq
  simp only [read32,first,second,third,fourth,byteOf,BitVec.toNat_ofNat]
  omega

/-- The two memories hold the same bytes at every address outside `[lo, hi)`. -/
def SameOutside (lo hi : Nat) (m m' : Memory) : Prop :=
  ∀ x : Word, x.toNat < lo ∨ hi ≤ x.toNat → m' x = m x

theorem SameOutside.refl (lo hi : Nat) (m : Memory) : SameOutside lo hi m m := fun _ _ => rfl

theorem SameOutside.trans {lo hi : Nat} {a b c : Memory}
    (first : SameOutside lo hi a b) (second : SameOutside lo hi b c) : SameOutside lo hi a c :=
  fun x out => (second x out).trans (first x out)

theorem SameOutside.widen {lo hi lo' hi' : Nat} {a b : Memory} (same : SameOutside lo hi a b)
    (left : lo' ≤ lo) (right : hi ≤ hi') : SameOutside lo' hi' a b :=
  fun x out => same x (by omega)

theorem write8_sameOutside (m : Memory) (a : Word) (v : Byte) :
    SameOutside a.toNat (a.toNat+1) m (write8 m a v) := by
  intro x out
  have other : x ≠ a := by
    rintro rfl
    omega
  simp [write8,other]

theorem write32_sameOutside (m : Memory) (a v : Word) (room : a.toNat + 4 ≤ 2^32) :
    SameOutside a.toNat (a.toNat+4) m (write32 m a v) := by
  have at1 : (a+1).toNat = a.toNat+1 := by simp only [BitVec.toNat_add,BitVec.reduceToNat]; omega
  have at2 : (a+2).toNat = a.toNat+2 := by simp only [BitVec.toNat_add,BitVec.reduceToNat]; omega
  have at3 : (a+3).toNat = a.toNat+3 := by simp only [BitVec.toNat_add,BitVec.reduceToNat]; omega
  have byte0 := (write8_sameOutside m a (byteOf v 0)).widen (Nat.le_refl a.toNat)
    (by omega : a.toNat+1 ≤ a.toNat+4)
  have byte1 := (write8_sameOutside (write8 m a (byteOf v 0)) (a+1) (byteOf v 1)).widen
    (by omega : a.toNat ≤ _) (by omega : _ ≤ a.toNat+4)
  have byte2 := (write8_sameOutside (write8 (write8 m a (byteOf v 0)) (a+1) (byteOf v 1))
    (a+2) (byteOf v 2)).widen (by omega : a.toNat ≤ _) (by omega : _ ≤ a.toNat+4)
  have byte3 := (write8_sameOutside (write8 (write8 (write8 m a (byteOf v 0)) (a+1) (byteOf v 1))
    (a+2) (byteOf v 2)) (a+3) (byteOf v 3)).widen (by omega : a.toNat ≤ _) (by omega : _ ≤ a.toNat+4)
  exact ((byte0.trans byte1).trans byte2).trans byte3

theorem read32_congr (m m' : Memory) (a : Word) (room : a.toNat + 4 ≤ 2^32)
    (same : ∀ x : Word, a.toNat ≤ x.toNat → x.toNat < a.toNat+4 → m' x = m x) :
    read32 m' a = read32 m a := by
  have at1 : (a+1).toNat = a.toNat+1 := by simp only [BitVec.toNat_add,BitVec.reduceToNat]; omega
  have at2 : (a+2).toNat = a.toNat+2 := by simp only [BitVec.toNat_add,BitVec.reduceToNat]; omega
  have at3 : (a+3).toNat = a.toNat+3 := by simp only [BitVec.toNat_add,BitVec.reduceToNat]; omega
  simp only [read32]
  rw [same a (by omega) (by omega),same (a+1) (by omega) (by omega),
    same (a+2) (by omega) (by omega),same (a+3) (by omega) (by omega)]

theorem read32_fill (m : Memory) (a : Word) (v : Byte) (room : a.toNat + 4 ≤ 2^32)
    (filled : ∀ x : Word, a.toNat ≤ x.toNat → x.toNat < a.toNat+4 → m x = v) :
    read32 m a = read32 (fun _ => v) 0 :=
  (read32_congr (fun _ => v) m a room filled).trans rfl

theorem SameOutside.read32 {lo hi : Nat} {m m' : Memory} (same : SameOutside lo hi m m')
    (a : Word) (room : a.toNat + 4 ≤ 2^32) (apart : a.toNat + 4 ≤ lo ∨ hi ≤ a.toNat) :
    read32 m' a = read32 m a :=
  read32_congr m m' a room (fun x low high => same x (by omega))

end BlackOS.Library.Ram
