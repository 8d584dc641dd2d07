import BlackOS.NetAgreement

/-! The Internet checksum in `kernel/net/net.c`, which adds little-endian words, and in
`rust/black_net`, which adds big-endian words. -/
namespace BlackOS.Net
open BlackOS.Library.Ram

/-- `black_htons` of `net.c`. -/
def blackHtons (v : Half) : Half := v >>> 8 ||| v <<< 8

/-- The loop of `black_checksum` over the words from an offset on, with the byte that is left. -/
def addHalves (b : Buffer) (p : Nat) (sum : Word) : Nat → Word
  | 0 => sum
  | 1 => sum + (b.bytes p).setWidth 32
  | len+2 => addHalves b (p + 2) (sum + (b.half p).setWidth 32) len

/-- `while (black_sum >> 16)`. -/
def foldHigh (sum : Word) : Word :=
  if sum >>> 16 ≠ 0 then foldHigh ((sum &&& 0xFFFF#32) + (sum >>> 16)) else sum
  termination_by sum.toNat
  decreasing_by
    rename_i carry
    rw [folded_toNat]
    have high : (sum >>> 16).toNat = sum.toNat / 65536 := by
      rw [BitVec.toNat_ushiftRight,Nat.shiftRight_eq_div_pow]
    have positive : (sum >>> 16).toNat ≠ 0 := fun zero => carry (BitVec.eq_of_toNat_eq zero)
    omega

def blackChecksum (b : Buffer) (len : Nat) : Half := ~~~((foldHigh (addHalves b 0 0 len)).setWidth 16)

def blackComputeIpChecksum (b : Buffer) (len : Nat) : Half :=
  let sum := sumWords b (len / 2)
  let sum := if len % 2 = 1 then sum + (b.bytes (len - 1)).setWidth 32 <<< 8 else sum
  ~~~((foldSum sum).setWidth 16)

theorem foldHigh_eq (sum : Word) : foldHigh sum = foldSum sum := by
  fun_induction foldHigh sum with
  | case1 sum carry ih =>
    have large : 0xFFFF < sum := by bv_omega
    rw [foldSum,if_pos large,ih]
  | case2 sum small =>
    have fits : ¬0xFFFF < sum := by bv_omega
    rw [foldSum,if_neg fits]

/-- The little-endian sum of the bytes from an offset on, unbounded. -/
def Buffer.little (b : Buffer) (p : Nat) : Nat → Nat
  | 0 => 0
  | 1 => (b.bytes p).toNat
  | len+2 => (b.bytes p).toNat + (b.bytes (p + 1)).toNat * 256 + b.little (p + 2) len

def Buffer.big (b : Buffer) (p : Nat) : Nat → Nat
  | 0 => 0
  | 1 => (b.bytes p).toNat * 256
  | len+2 => (b.bytes p).toNat * 256 + (b.bytes (p + 1)).toNat + b.big (p + 2) len

theorem half_toNat (b : Buffer) (p : Nat) :
    (b.half p).toNat = (b.bytes p).toNat + (b.bytes (p + 1)).toNat * 256 := by
  have low := (b.bytes p).isLt
  rw [Buffer.half,BitVec.toNat_append,← Nat.shiftLeft_add_eq_or_of_lt low,Nat.shiftLeft_eq]
  omega

theorem addHalves_toNat (b : Buffer) (p : Nat) (sum : Word) (len : Nat)
    (small : sum.toNat + len * 65535 < 2 ^ 32) :
    (addHalves b p sum len).toNat = sum.toNat + b.little p len := by
  fun_induction addHalves b p sum len with
  | case1 p sum => rfl
  | case2 p sum =>
    have byte := (b.bytes p).isLt
    rw [BitVec.toNat_add,BitVec.toNat_setWidth,Nat.mod_eq_of_lt (by omega : (b.bytes p).toNat < 2 ^ 32)]
    exact Nat.mod_eq_of_lt (by omega)
  | case3 p sum len ih =>
    have word := (b.half p).isLt
    have step : (sum + (b.half p).setWidth 32).toNat = sum.toNat + (b.half p).toNat := by
      rw [BitVec.toNat_add,BitVec.toNat_setWidth,Nat.mod_eq_of_lt (by omega : (b.half p).toNat < 2 ^ 32)]
      exact Nat.mod_eq_of_lt (by omega)
    rw [ih (by omega),step,half_toNat,Buffer.little]
    omega

/-- Bytes in the other order: 256 times the sum, modulo 65535. -/
theorem little_big (b : Buffer) (p len : Nat) :
    b.little p len % 65535 = 256 * b.big p len % 65535 ∧ (b.little p len = 0 ↔ b.big p len = 0) := by
  fun_induction Buffer.little b p len with
  | case1 p => exact ⟨rfl,Iff.rfl⟩
  | case2 p =>
    rw [Buffer.big]
    omega
  | case3 p len ih =>
    rw [Buffer.big]
    omega

theorem total_shift (b : Buffer) (p n : Nat) :
    (b.add p).total (n + 1) =
      (b.bytes p).toNat * 256 + (b.bytes (p + 1)).toNat + (b.add (p + 2)).total n := by
  unfold Buffer.total
  rw [List.range_succ_eq_map,List.map_cons,List.sum_cons,List.map_map]
  refine congrArg₂ (· + ·) rfl (congrArg List.sum (List.map_congr_left fun i _ => ?_))
  have first : p + (i + 1) * 2 = p + 2 + i * 2 := by omega
  have second : p + ((i + 1) * 2 + 1) = p + 2 + (i * 2 + 1) := by omega
  simp only [Function.comp_apply,Nat.succ_eq_add_one,Buffer.add,first,second]

theorem big_total (b : Buffer) (p len : Nat) : b.big p len =
    (b.add p).total (len / 2) + if len % 2 = 1 then (b.bytes (p + (len - 1))).toNat * 256 else 0 := by
  fun_induction Buffer.big b p len with
  | case1 p => rfl
  | case2 p =>
    rw [if_pos rfl]
    exact (Nat.zero_add _).symm
  | case3 p len ih =>
    have half : (len + 2) / 2 = len / 2 + 1 := by omega
    have parity : (len + 2) % 2 = len % 2 := by omega
    rw [half,parity,total_shift,ih]
    by_cases odd : len % 2 = 1
    · have last : p + 2 + (len - 1) = p + (len.succ.succ - 1) := by omega
      rw [if_pos odd,if_pos odd,last]
      exact (Nat.add_assoc _ _ _).symm
    · rw [if_neg odd,if_neg odd]
      exact (Nat.add_assoc _ _ _).symm

theorem bigSum_toNat (b : Buffer) (len : Nat) (short : len ≤ 65535) :
    (if len % 2 = 1 then sumWords b (len / 2) + (b.bytes (len - 1)).setWidth 32 <<< 8
      else sumWords b (len / 2)).toNat = b.big 0 len := by
  have start : b.add 0 = b := by
    unfold Buffer.add
    simp only [Nat.zero_add]
  have words := sumWords_toNat b (len / 2) (by omega)
  have bound := total_le b (len / 2)
  have byte := (b.bytes (len - 1)).isLt
  rw [big_total,start,Nat.zero_add]
  by_cases odd : len % 2 = 1
  · have shifted : ((b.bytes (len - 1)).setWidth 32 <<< 8).toNat = (b.bytes (len - 1)).toNat * 256 := by
      rw [BitVec.toNat_shiftLeft,BitVec.toNat_setWidth,Nat.shiftLeft_eq]
      omega
    rw [if_pos odd,if_pos odd,BitVec.toNat_add,words,shifted]
    exact Nat.mod_eq_of_lt (by omega)
  · rw [if_neg odd,if_neg odd,words]
    rfl

theorem htons_toNat (v : Half) : (blackHtons v).toNat = v.toNat % 256 * 256 + v.toNat / 256 := by
  have bound := v.isLt
  have high : (v >>> 8).toNat = v.toNat / 256 := by
    rw [BitVec.toNat_ushiftRight,Nat.shiftRight_eq_div_pow]
  have low : (v <<< 8).toNat = (v.toNat % 256) <<< 8 := by
    rw [BitVec.toNat_shiftLeft,Nat.shiftLeft_eq,Nat.shiftLeft_eq]
    omega
  rw [blackHtons,BitVec.toNat_or,high,low,Nat.or_comm,
    ← Nat.shiftLeft_add_eq_or_of_lt (by omega : v.toNat / 256 < 2 ^ 8),Nat.shiftLeft_eq]

theorem htons_not (v : Half) : blackHtons (~~~v) = ~~~(blackHtons v) := by
  apply BitVec.eq_of_toNat_eq
  have bound := v.isLt
  rw [htons_toNat,BitVec.toNat_not,BitVec.toNat_not,htons_toNat]
  omega

theorem htons_bytes (v : Half) : (blackHtons v).setWidth 8 = (v >>> 8).setWidth 8 ∧
    ((blackHtons v) >>> 8).setWidth 8 = v.setWidth 8 := by
  have value := htons_toNat v
  have bound := v.isLt
  have base : 2 ^ 8 = 256 := rfl
  have high : (v.toNat % 256 * 256 + v.toNat / 256) / 256 = v.toNat % 256 := by omega
  constructor
  · apply BitVec.eq_of_toNat_eq
    rw [BitVec.toNat_setWidth,BitVec.toNat_setWidth,BitVec.toNat_ushiftRight,Nat.shiftRight_eq_div_pow,value]
    omega
  · apply BitVec.eq_of_toNat_eq
    rw [BitVec.toNat_setWidth,BitVec.toNat_setWidth,BitVec.toNat_ushiftRight,Nat.shiftRight_eq_div_pow,value,base,high,
      Nat.mod_mod]

/-- A folded sum that is 256 times another modulo 65535 has the bytes of the other, swapped. -/
theorem swap_residue (x y : Nat) (left : x ≤ 65535) (right : y ≤ 65535) (residue : x % 65535 = 256 * y % 65535)
    (zero : x = 0 ↔ y = 0) : x = y % 256 * 256 + y / 256 := by
  have parts : 256 * y = 65535 * (y / 256) + (y % 256 * 256 + y / 256) := by omega
  rw [parts,Nat.mul_add_mod] at residue
  have swapped : y % 256 * 256 + y / 256 ≤ 65535 := by omega
  have positive : y % 256 * 256 + y / 256 = 0 ↔ y = 0 := by omega
  generalize y % 256 * 256 + y / 256 = z at residue swapped positive ⊢
  omega

theorem folds_swapped (b : Buffer) (len : Nat) (short : len ≤ 65535) (sum : Word)
    (big : sum.toNat = b.big 0 len) :
    (foldHigh (addHalves b 0 0 len)).setWidth 16 = blackHtons ((foldSum sum).setWidth 16) := by
  have zero : (0 : Word).toNat = 0 := rfl
  have little := addHalves_toNat b 0 0 len (by omega)
  have swapped := little_big b 0 len
  obtain ⟨bound,residue,none⟩ := foldSum_spec sum
  obtain ⟨bound',residue',none'⟩ := foldSum_spec (addHalves b 0 0 len)
  rw [little,zero,Nat.zero_add] at residue' none'
  rw [big] at residue none
  apply BitVec.eq_of_toNat_eq
  rw [foldHigh_eq,htons_toNat,BitVec.toNat_setWidth,BitVec.toNat_setWidth,
    Nat.mod_eq_of_lt (by omega : (foldSum (addHalves b 0 0 len)).toNat < 2 ^ 16),
    Nat.mod_eq_of_lt (by omega : (foldSum sum).toNat < 2 ^ 16)]
  refine swap_residue _ _ bound' bound ?_ (none'.trans (swapped.2.trans none.symm))
  rw [residue',swapped.1,Nat.mul_mod,← residue,← Nat.mul_mod]

/-- The kernel's checksum is the parser's with its bytes swapped, and in memory, little-endian
there and big-endian here, they are the same two bytes. -/
theorem checksums_agree (b : Buffer) (len : Nat) (short : len ≤ 65535) :
    blackChecksum b len = blackHtons (blackComputeIpChecksum b len) ∧
    (blackChecksum b len).setWidth 8 = ((blackComputeIpChecksum b len) >>> 8).setWidth 8 ∧
    ((blackChecksum b len) >>> 8).setWidth 8 = (blackComputeIpChecksum b len).setWidth 8 := by
  have swapped : blackChecksum b len = blackHtons (blackComputeIpChecksum b len) := by
    rw [blackChecksum,folds_swapped b len short _ (bigSum_toNat b len short),← htons_not]
    rfl
  obtain ⟨low,high⟩ := htons_bytes (blackComputeIpChecksum b len)
  refine ⟨swapped,?_,?_⟩
  · rw [swapped]
    exact low
  · rw [swapped]
    exact high

theorem checksums_agree_odd : (3 : Nat) ≤ 65535 ∧
    blackChecksum ⟨false,fun i => BitVec.ofNat 8 (200 + i)⟩ 3 =
      blackHtons (blackComputeIpChecksum ⟨false,fun i => BitVec.ofNat 8 (200 + i)⟩ 3) :=
  ⟨by decide,(checksums_agree ⟨false,fun i => BitVec.ofNat 8 (200 + i)⟩ 3 (by decide)).1⟩

end BlackOS.Net
