import BlackOS.Library.Ram

/-! The memory routines of `libc/string/string.c` that the kernel's allocators
call. Each is the source's byte loop, counted down by its length argument. -/
namespace BlackOS.LibcString
open BlackOS.Library.Ram

/-- The loop of `memset`: `while (black_n--) *black_d++ = (uint8_t)black_val`. -/
def memsetLoop (value : Byte) : Nat → Memory → Word → Memory
  | 0,m,_ => m
  | n+1,m,d => memsetLoop value n (write8 m d value) (d+1)

def memset (m : Memory) (dst val n : Word) : Memory := memsetLoop (val.setWidth 8) n.toNat m dst

/-- The loop of `memcpy`: `while (black_n--) *black_d++ = *black_s++`. -/
def memcpyLoop : Nat → Memory → Word → Word → Memory
  | 0,m,_,_ => m
  | n+1,m,d,s => memcpyLoop n (write8 m d (m s)) (d+1) (s+1)

def memcpy (m : Memory) (dst src n : Word) : Memory := memcpyLoop n.toNat m dst src

/-- The loop of `memmove` from the ends: `while (black_n--) *(--black_d) = *(--black_s)`. -/
def memmoveLoop : Nat → Memory → Word → Word → Memory
  | 0,m,_,_ => m
  | n+1,m,d,s => memmoveLoop n (write8 m (d-1) (m (s-1))) (d-1) (s-1)

def memmove (m : Memory) (dst src n : Word) : Memory :=
  if dst < src then memcpyLoop n.toNat m dst src else memmoveLoop n.toNat m (dst + n) (src + n)

/-- `memcpy` of bytes that lie outside the memory. -/
def copyBytes : Memory → Word → List Byte → Memory
  | m,_,[] => m
  | m,d,b::bytes => copyBytes (write8 m d b) (d+1) bytes

private theorem next_address (d : Word) (n : Nat) (room : d.toNat + (n+1) ≤ 2^32) :
    n = 0 ∨ (d+1).toNat = d.toNat+1 := by
  simp only [BitVec.toNat_add,BitVec.reduceToNat]
  omega

/-- A loop over `n+1` bytes from `d` on writes the first of them, and its other rounds are a loop over
the rest. -/
theorem loop_sameOutside (n : Nat) (m m' : Memory) (d : Word) (value : Byte) (room : d.toNat + (n+1) ≤ 2^32)
    (stop : n = 0 → m' = write8 m d value)
    (more : (d+1).toNat + n ≤ 2^32 → SameOutside (d+1).toNat ((d+1).toNat+n) (write8 m d value) m') :
    SameOutside d.toNat (d.toNat+(n+1)) m m' := by
  have first := (write8_sameOutside m d value).widen (Nat.le_refl _) (by omega : _ ≤ d.toNat+(n+1))
  rcases next_address d n room with zero | next
  · rw [stop zero]
    exact first
  · have rest := (more (by omega)).widen (by omega : d.toNat ≤ _) (by omega : _ ≤ d.toNat+(n+1))
    exact first.trans rest

theorem memsetLoop_sameOutside (value : Byte) (n : Nat) (m : Memory) (d : Word)
    (room : d.toNat + n ≤ 2^32) :
    SameOutside d.toNat (d.toNat+n) m (memsetLoop value n m d) := by
  induction n generalizing m d with
  | zero => exact SameOutside.refl _ _ m
  | succ n ih =>
    refine loop_sameOutside n m _ d value room (fun zero => ?_) (ih (write8 m d value) (d+1))
    rw [zero]
    rfl

theorem memsetLoop_inside (value : Byte) (n : Nat) (m : Memory) (d x : Word)
    (room : d.toNat + n ≤ 2^32) (low : d.toNat ≤ x.toNat) (high : x.toNat < d.toNat+n) :
    memsetLoop value n m d x = value := by
  induction n generalizing m d with
  | zero => omega
  | succ n ih =>
    rw [memsetLoop]
    rcases next_address d n room with rfl | next
    · have same : x = d := BitVec.eq_of_toNat_eq (by omega)
      simp [memsetLoop,write8,same]
    · by_cases here : x.toNat = d.toNat
      · -- the later bytes of the fill lie above `d`
        have same : x = d := BitVec.eq_of_toNat_eq here
        rw [memsetLoop_sameOutside value n _ (d+1) (by omega) x (by omega)]
        simp [write8,same]
      · exact ih (write8 m d value) (d+1) (by omega) (by omega) (by omega)

theorem memcpyLoop_sameOutside (n : Nat) (m : Memory) (d s : Word) (room : d.toNat + n ≤ 2^32) :
    SameOutside d.toNat (d.toNat+n) m (memcpyLoop n m d s) := by
  induction n generalizing m d s with
  | zero => exact SameOutside.refl _ _ m
  | succ n ih =>
    refine loop_sameOutside n m _ d (m s) room (fun zero => ?_) (ih (write8 m d (m s)) (d+1) (s+1))
    rw [zero]
    rfl

theorem offset_toNat (a : Word) (i n : Nat) (inside : i < n) (room : a.toNat + n ≤ 2^32) :
    (a + word i).toNat = a.toNat + i := by
  rw [BitVec.toNat_add,word_toNat i (by omega)]
  omega

/-- A copy to a place that is below the source, or behind it, leaves the source's bytes in the destination. -/
theorem memcpyLoop_inside (n : Nat) (m : Memory) (d s : Word) (i : Nat) (inside : i < n)
    (roomD : d.toNat + n ≤ 2^32) (roomS : s.toNat + n ≤ 2^32)
    (apart : d.toNat < s.toNat ∨ s.toNat + n ≤ d.toNat) :
    memcpyLoop n m d s (d + word i) = m (s + word i) := by
  induction n generalizing m d s i with
  | zero => omega
  | succ n ih =>
    rw [memcpyLoop]
    have placeD := offset_toNat d i (n+1) inside roomD
    have placeS := offset_toNat s i (n+1) inside roomS
    have other : s + word i ≠ d := by
      intro equal
      rw [equal] at placeS
      omega
    have first : write8 m d (m s) (s + word i) = m (s + word i) := by simp [write8,other]
    rcases next_address d n roomD with rfl | nextD
    · have zero : i = 0 := by omega
      subst zero
      simp [memcpyLoop,write8,word]
    · by_cases here : i = 0
      · -- the later bytes of the copy lie above `d`
        subst here
        rw [memcpyLoop_sameOutside n _ (d+1) (s+1) (by omega) (d + word 0) (by omega)]
        simp [write8,word]
      · have nextS : (s+1).toNat = s.toNat+1 := by
          rw [BitVec.toNat_add]
          simp only [BitVec.reduceToNat]
          omega
        have shift (a : Word) : a + word i = a + 1 + word (i-1) := by
          rw [BitVec.add_assoc]
          apply congrArg (a + ·)
          have sum := word_add 1 (i-1)
          rw [show 1 + (i-1) = i by omega] at sum
          exact sum.symm
        rw [shift d,ih _ (d+1) (s+1) (i-1) (by omega) (by omega) (by omega) (by omega),← shift s,first]

theorem memset_sameOutside (m : Memory) (dst val n : Word) (room : dst.toNat + n.toNat ≤ 2^32) :
    SameOutside dst.toNat (dst.toNat+n.toNat) m (memset m dst val n) :=
  memsetLoop_sameOutside _ _ _ _ room

theorem memset_inside (m : Memory) (dst val n x : Word) (room : dst.toNat + n.toNat ≤ 2^32)
    (low : dst.toNat ≤ x.toNat) (high : x.toNat < dst.toNat+n.toNat) :
    memset m dst val n x = val.setWidth 8 :=
  memsetLoop_inside _ _ _ _ _ room low high

theorem memcpy_sameOutside (m : Memory) (dst src n : Word) (room : dst.toNat + n.toNat ≤ 2^32) :
    SameOutside dst.toNat (dst.toNat+n.toNat) m (memcpy m dst src n) :=
  memcpyLoop_sameOutside _ _ _ _ room

theorem memcpy_inside (m : Memory) (dst src n i : Word) (inside : i < n)
    (roomD : dst.toNat + n.toNat ≤ 2^32) (roomS : src.toNat + n.toNat ≤ 2^32)
    (apart : dst.toNat + n.toNat ≤ src.toNat ∨ src.toNat + n.toNat ≤ dst.toNat) :
    memcpy m dst src n (dst + i) = m (src + i) := by
  have copied := memcpyLoop_inside n.toNat m dst src i.toNat inside roomD roomS (by
    have filled := BitVec.lt_def.mp inside
    omega)
  rw [toNat_word] at copied
  exact copied

/-- A round from the ends writes the last byte, and leaves a copy of the bytes before it. -/
theorem memmoveLoop_succ (n : Nat) (m : Memory) (dst src : Word) :
    memmoveLoop (n+1) m (dst + word (n+1)) (src + word (n+1)) =
      memmoveLoop n (write8 m (dst + word n) (m (src + word n))) (dst + word n) (src + word n) := by
  have last (a : Word) : a + word (n+1) - 1 = a + word n := by
    rw [← word_add n 1,← BitVec.add_assoc]
    exact BitVec.add_sub_cancel _ _
  rw [memmoveLoop,last,last]

theorem memmoveLoop_sameOutside (n : Nat) (m : Memory) (dst src : Word) (room : dst.toNat + n ≤ 2^32) :
    SameOutside dst.toNat (dst.toNat+n) m (memmoveLoop n m (dst + word n) (src + word n)) := by
  induction n generalizing m with
  | zero => exact SameOutside.refl _ _ m
  | succ n ih =>
    have place := offset_toNat dst n (n+1) (Nat.lt_succ_self n) room
    have last := write8_sameOutside m (dst + word n) (m (src + word n))
    rw [place] at last
    rw [memmoveLoop_succ]
    exact (last.widen (by omega) (by omega)).trans ((ih _ (by omega)).widen (by omega) (by omega))

/-- A copy from the ends to a place that is not below the source: the bytes that are still to be read lie below those
that have been written. -/
theorem memmoveLoop_inside (n : Nat) (m : Memory) (dst src : Word) (i : Nat) (inside : i < n)
    (roomD : dst.toNat + n ≤ 2^32) (roomS : src.toNat + n ≤ 2^32) (above : src.toNat ≤ dst.toNat) :
    memmoveLoop n m (dst + word n) (src + word n) (dst + word i) = m (src + word i) := by
  induction n generalizing m with
  | zero => omega
  | succ n ih =>
    have last := offset_toNat dst n (n+1) (Nat.lt_succ_self n) roomD
    rw [memmoveLoop_succ]
    by_cases end_ : i = n
    · -- the later rounds write below the last byte
      subst end_
      rw [memmoveLoop_sameOutside i _ dst src (by omega) (dst + word i) (by omega)]
      exact if_pos rfl
    · have place := offset_toNat src i (n+1) inside roomS
      have other : src + word i ≠ dst + word n := by
        intro equal
        rw [equal] at place
        omega
      rw [ih _ (by omega) (by omega) (by omega)]
      exact if_neg other

theorem memmove_sameOutside (m : Memory) (dst src n : Word) (room : dst.toNat + n.toNat ≤ 2^32) :
    SameOutside dst.toNat (dst.toNat+n.toNat) m (memmove m dst src n) := by
  have backward := memmoveLoop_sameOutside n.toNat m dst src room
  rw [toNat_word] at backward
  rw [memmove]
  split
  · exact memcpyLoop_sameOutside _ _ _ _ room
  · exact backward

theorem memmove_inside (m : Memory) (dst src n : Word) (i : Nat) (inside : i < n.toNat)
    (roomD : dst.toNat + n.toNat ≤ 2^32) (roomS : src.toNat + n.toNat ≤ 2^32) :
    memmove m dst src n (dst + word i) = m (src + word i) := by
  rw [memmove]
  by_cases below : dst < src
  · rw [if_pos below]
    exact memcpyLoop_inside n.toNat m dst src i inside roomD roomS (.inl (BitVec.lt_def.mp below))
  · have backward := memmoveLoop_inside n.toNat m dst src i inside roomD roomS
      (Nat.le_of_not_lt fun lower => below (BitVec.lt_def.mpr lower))
    rw [toNat_word] at backward
    rw [if_neg below]
    exact backward

/-- Whatever the overlap, the destination gets the bytes that the source had before, and no other byte changes. -/
theorem memmove_moves (m : Memory) (dst src n : Word) (roomD : dst.toNat + n.toNat ≤ 2^32)
    (roomS : src.toNat + n.toNat ≤ 2^32) :
    (∀ i < n.toNat, memmove m dst src n (dst + word i) = m (src + word i)) ∧
      ∀ x : Word, x.toNat < dst.toNat ∨ dst.toNat + n.toNat ≤ x.toNat → memmove m dst src n x = m x :=
  ⟨fun i inside => memmove_inside m dst src n i inside roomD roomS,memmove_sameOutside m dst src n roomD⟩

/-- Four bytes that are moved up by one, up to the last address. -/
theorem memmove_moves_up :
    let m : Memory := fun x => x.setWidth 8
    (∀ i < 4, memmove m 0xFFFFFFFC 0xFFFFFFFB 4 (0xFFFFFFFC + word i) = m (0xFFFFFFFB + word i)) ∧
      ∀ x : Word, x.toNat < 0xFFFFFFFC ∨ 0x100000000 ≤ x.toNat → memmove m 0xFFFFFFFC 0xFFFFFFFB 4 x = m x :=
  memmove_moves (fun x => x.setWidth 8) 0xFFFFFFFC 0xFFFFFFFB 4 (by decide) (by decide)

/-- The copy counts addresses from the first one on, round the last address. -/
theorem copyBytes_apply (bytes : List Byte) (m : Memory) (d x : Word) (room : bytes.length ≤ 2^32) :
    copyBytes m d bytes x = (bytes[(x - d).toNat]?).getD (m x) := by
  induction bytes generalizing m d with
  | nil => rfl
  | cons b bytes ih =>
    rw [List.length_cons] at room
    rw [copyBytes,ih (write8 m d b) (d + 1) (by omega),write8]
    by_cases first : x = d
    · have last : (x - (d + 1)).toNat = 2^32 - 1 := by
        have below := d.isLt
        have one : (1 : Word).toNat = 1 := rfl
        rw [first,BitVec.toNat_sub,BitVec.toNat_add,one]
        omega
      have here : (x - d).toNat = 0 := by rw [first,BitVec.sub_self]; rfl
      rw [last,here,List.getElem?_eq_none (by omega),if_pos first]
      rfl
    · have next : (x - d).toNat = (x - (d + 1)).toNat + 1 := by
        have apart : x.toNat ≠ d.toNat := fun same => first (BitVec.eq_of_toNat_eq same)
        have one : (1 : Word).toNat = 1 := rfl
        have left := x.isLt
        have right := d.isLt
        rw [BitVec.toNat_sub,BitVec.toNat_sub,BitVec.toNat_add,one]
        omega
      rw [next,List.getElem?_cons_succ,if_neg first]

/-- What is copied can be read back. -/
theorem copyBytes_back (bytes : List Byte) (m : Memory) (d : Word) (room : bytes.length ≤ 2^32) :
    (List.range bytes.length).map (fun k => copyBytes m d bytes (d + word k)) = bytes := by
  apply List.ext_getElem
  · rw [List.length_map,List.length_range]
  · intro k left right
    have place : (d + word k - d).toNat = k := by
      rw [BitVec.add_comm,BitVec.add_sub_cancel,word_toNat k (by omega)]
    rw [List.getElem_map,List.getElem_range,copyBytes_apply bytes m d _ room,place,List.getElem?_eq_getElem right]
    rfl

theorem copyBytes_sameOutside (bytes : List Byte) (m : Memory) (d : Word) (room : d.toNat + bytes.length ≤ 2^32) :
    SameOutside d.toNat (d.toNat+bytes.length) m (copyBytes m d bytes) := by
  intro x out
  have above : bytes.length ≤ (x - d).toNat := by
    have left := x.isLt
    have right := d.isLt
    rw [BitVec.toNat_sub]
    omega
  rw [copyBytes_apply bytes m d x (by omega),List.getElem?_eq_none above]
  rfl

end BlackOS.LibcString
