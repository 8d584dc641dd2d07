import BlackOS.Library.Ram
import BlackOS.Library.Gf2

/-! The CRC-32 of `rust/black_core`, and what it says of the bytes that it was fed. -/
namespace BlackOS.Crc32
open BlackOS.Library.Ram BlackOS.Library.Gf2 Polynomial

/-- `black_crc32_ctx`. -/
structure Ctx where
  crc : Word

def blackCrc32Init (ctx : Ctx) : Ctx := {ctx with crc := 0xFFFFFFFF}

/-- The round of the inner loop. -/
def shiftOut (ctx : Ctx) : Ctx :=
  if ctx.crc &&& 1 ≠ 0 then {ctx with crc := (ctx.crc >>> 1) ^^^ 0xEDB88320} else {ctx with crc := ctx.crc >>> 1}

def updateByte (ctx : Ctx) (byte : Byte) : Ctx :=
  let ctx := {ctx with crc := ctx.crc ^^^ byte.setWidth 32}
  (List.range 8).foldl (fun ctx _ => shiftOut ctx) ctx

def blackCrc32Update (ctx : Ctx) (data : List Byte) : Ctx := data.foldl updateByte ctx

def blackCrc32Final (ctx : Ctx) : Word := ctx.crc ^^^ 0xFFFFFFFF

/-- The check word of bytes that come in chunks. -/
def blackCrc32 (ctx : Ctx) (chunks : List (List Byte)) : Word :=
  blackCrc32Final (chunks.foldl blackCrc32Update (blackCrc32Init ctx))

/-- The bits of a message in the order of its bytes, the lowest bit of a byte first. -/
def bits (data : List Byte) : List Bool := data.flatMap fun byte => (List.range 8).map byte.getLsbD

/-- CRC-32 as it is defined: its generator, and ones at the start and for the end. -/
noncomputable def crc32 (data : List Byte) : Word := crc (ofNat 0x104C11DB7) 0xFFFFFFFF#32 0xFFFFFFFF#32 (bits data)

def taps : Word := 0xEDB88320

theorem generator_eq : ofNat 0x104C11DB7 = modulus taps := by
  have low : ∀ k < 32, Nat.testBit 0x104C11DB7 k = taps.getLsbD (32 - 1 - k) := by decide
  ext k
  rw [coeff_ofNat,modulus,coeff_add,coeff_X_pow,coeff_reflected]
  by_cases inside : k < 32
  · rw [if_neg (by omega),if_pos inside,zero_add,low k inside]
  · rw [if_neg inside,add_zero]
    by_cases top : k = 32
    · rw [if_pos top,top]
      decide
    · have beyond : 0x104C11DB7 < 2 ^ k :=
        lt_of_lt_of_le (by decide : 0x104C11DB7 < 2 ^ 33) (Nat.pow_le_pow_right (by decide) (by omega))
      rw [if_neg top,Nat.testBit_lt_two_pow beyond]
      rfl

theorem shiftOut_eq (ctx : Ctx) : shiftOut ctx = ⟨shift taps ctx.crc⟩ := by
  have low : ctx.crc &&& 1 ≠ 0 ↔ ctx.crc.getLsbD 0 = true := by
    have one : ctx.crc &&& 1 = (BitVec.ofBool (ctx.crc.getLsbD 0)).setWidth 32 :=
      BitVec.and_one_eq_setWidth_ofBool_getLsbD
    rw [one]
    cases ctx.crc.getLsbD 0 with
    | false => decide
    | true => decide
  rw [shiftOut,shift]
  by_cases out : ctx.crc.getLsbD 0 = true
  · rw [if_pos (low.mpr out),if_pos out]
    rfl
  · rw [if_neg (low.not.mpr out),if_neg out]

theorem shiftOut_run (n : Nat) (ctx : Ctx) :
    (List.range n).foldl (fun ctx _ => shiftOut ctx) ctx = ⟨shifts taps n ctx.crc⟩ := by
  induction n with
  | zero => rfl
  | succ n ih =>
    rw [List.range_succ,List.foldl_append,ih,List.foldl_cons,List.foldl_nil,shiftOut_eq,shifts,shifts,
      Function.iterate_succ_apply']

/-- A byte in the low bits of the register, as a polynomial. -/
theorem reflected_byte (byte : Byte) :
    reflected (byte.setWidth 32) = X ^ 24 * ofBits ((List.range 8).map byte.getLsbD) := by
  ext k
  rw [coeff_reflected,coeff_X_pow_mul',ofBits,coeff_polynomial,List.length_map,List.length_range]
  by_cases inside : k < 32
  · rw [if_pos inside,BitVec.getLsbD_setWidth,decide_eq_true (by omega),Bool.true_and]
    by_cases high : 24 ≤ k
    · have place : 8 - 1 - (k - 24) = 32 - 1 - k := by omega
      rw [if_pos high,if_pos (by omega),place,List.getD_eq_getElem?_getD,List.getElem?_map,
        List.getElem?_range (by omega),Option.map_some,Option.getD_some]
    · rw [if_neg high,BitVec.getLsbD_of_ge byte _ (by omega)]
      rfl
  · rw [if_neg inside]
    by_cases high : 24 ≤ k
    · rw [if_pos high,if_neg (by omega)]
    · rw [if_neg high]

theorem updateByte_holds (ctx : Ctx) (byte : Byte) (p : (ZMod 2)[X]) (holds : Holds taps ctx.crc p) :
    Holds taps (updateByte ctx byte).crc (X ^ 8 * p + X ^ 32 * ofBits ((List.range 8).map byte.getLsbD)) := by
  have fed := holds_shifts taps (by decide) 8 _ _ (holds_xor taps ctx.crc (byte.setWidth 32) p holds)
  rw [reflected_byte,mul_add,← mul_assoc,← pow_add] at fed
  rw [updateByte,shiftOut_run]
  exact fed

/-- After any bytes the register holds the remainder of what it held, moved up, and of the message. -/
theorem update_holds (data : List Byte) : ∀ (ctx : Ctx) (p : (ZMod 2)[X]), Holds taps ctx.crc p →
    Holds taps (blackCrc32Update ctx data).crc (X ^ (bits data).length * p + X ^ 32 * ofBits (bits data)) := by
  induction data with
  | nil =>
    intro ctx p holds
    have empty : ofBits (bits []) = 0 := Finset.sum_range_zero fun k => C (bit ([].getD (0 - 1 - k) false)) * X ^ k
    have none_ : (bits []).length = 0 := rfl
    rw [empty,none_,pow_zero,one_mul,mul_zero,add_zero]
    exact holds
  | cons byte data ih =>
    intro ctx p holds
    have rest := ih (updateByte ctx byte) _ (updateByte_holds ctx byte p holds)
    have split : bits (byte::data) = (List.range 8).map byte.getLsbD ++ bits data := rfl
    have length : (bits (byte::data)).length = (bits data).length + 8 := by
      rw [split,List.length_append,List.length_map,List.length_range,Nat.add_comm]
    have shape : X ^ ((bits data).length + 8) * p +
          X ^ 32 * (X ^ (bits data).length * ofBits ((List.range 8).map byte.getLsbD) + ofBits (bits data)) =
        X ^ (bits data).length * (X ^ 8 * p + X ^ 32 * ofBits ((List.range 8).map byte.getLsbD)) +
          X ^ 32 * ofBits (bits data) := by
      ring
    rw [length,split,ofBits_append,shape]
    exact rest

theorem chunks_update (chunks : List (List Byte)) (ctx : Ctx) :
    chunks.foldl blackCrc32Update ctx = blackCrc32Update ctx chunks.flatten := by
  induction chunks generalizing ctx with
  | nil => rfl
  | cons chunk chunks ih =>
    rw [List.foldl_cons,ih,List.flatten_cons,blackCrc32Update,blackCrc32Update,blackCrc32Update,List.foldl_append]

theorem blackCrc32_eq (ctx : Ctx) (chunks : List (List Byte)) :
    blackCrc32 ctx chunks = crc (modulus taps) 0xFFFFFFFF#32 0xFFFFFFFF#32 (bits chunks.flatten) := by
  have holds := update_holds chunks.flatten (blackCrc32Init ctx) _ (holds_start taps 0xFFFFFFFF#32)
  rw [crc_held taps 0xFFFFFFFF#32 0xFFFFFFFF#32 _ _ holds,blackCrc32,chunks_update]
  rfl

/-- However the bytes are cut into chunks, the check word is the CRC-32 of all of them. -/
theorem crc32_chunks (ctx : Ctx) (chunks : List (List Byte)) : blackCrc32 ctx chunks = crc32 chunks.flatten := by
  rw [blackCrc32_eq,crc32,generator_eq]

/-- The digits one to nine, in two chunks. -/
example : blackCrc32 ⟨0⟩ [[0x31,0x32,0x33,0x34],[0x35,0x36,0x37,0x38,0x39]] = 0xCBF43926 := by decide +kernel

theorem bits_length (data : List Byte) : (bits data).length = 8 * data.length := by
  rw [bits,List.length_flatMap]
  simp only [List.length_map,List.length_range,List.map_const',List.sum_replicate,smul_eq_mul]
  exact Nat.mul_comm _ _

theorem bits_injective (xs : List Byte) : ∀ ys, bits xs = bits ys → xs = ys := by
  induction xs with
  | nil =>
    intro ys same
    have length := congrArg List.length same
    rw [bits_length,bits_length,List.length_nil] at length
    exact (List.eq_nil_of_length_eq_zero (by omega)).symm
  | cons x xs ih =>
    intro ys same
    cases ys with
    | nil =>
      have length := congrArg List.length same
      rw [bits_length,bits_length,List.length_nil,List.length_cons] at length
      omega
    | cons y ys =>
      obtain ⟨first,rest⟩ := List.append_inj same (by rw [List.length_map,List.length_map])
      have byte : x = y := by
        apply BitVec.eq_of_getLsbD_eq
        intro i inside
        exact List.map_inj_left.mp first i (List.mem_range.mpr inside)
      rw [byte,ih ys rest]

/-- Two messages of one length, cut into chunks in any way, that differ in a burst of at most 32 bits have
different check words. -/
theorem crc32_burst (ctx ctx' : Ctx) (xs ys : List (List Byte)) (length : xs.flatten.length = ys.flatten.length)
    (differ : xs.flatten ≠ ys.flatten) (s : Nat)
    (burst : ∀ j, (bits xs.flatten).getD j false ≠ (bits ys.flatten).getD j false → s ≤ j ∧ j < s + 32) :
    blackCrc32 ctx xs ≠ blackCrc32 ctx' ys := by
  intro same
  rw [blackCrc32_eq,blackCrc32_eq] at same
  have lengths : (bits xs.flatten).length = (bits ys.flatten).length := by
    rw [bits_length,bits_length,length]
  exact differ (bits_injective _ _ (crc_burst taps _ _ (by decide) _ _ lengths s burst same))

/-- The bits of 0x31 and 0x33 differ in one place. -/
theorem crc32_burst_digits : blackCrc32 ⟨0⟩ [[0x31]] ≠ blackCrc32 ⟨0⟩ [[0x33]] := by
  refine crc32_burst ⟨0⟩ ⟨0⟩ [[0x31]] [[0x33]] rfl (by decide) 0 fun j differs => ⟨Nat.zero_le j,?_⟩
  by_contra beyond
  have left : (bits [[0x31]].flatten).length ≤ j := by
    rw [bits_length]
    exact le_trans (by decide) (not_lt.mp beyond)
  have right : (bits [[0x33]].flatten).length ≤ j := by
    rw [bits_length]
    exact le_trans (by decide) (not_lt.mp beyond)
  rw [List.getD_eq_default _ _ left,List.getD_eq_default _ _ right] at differs
  exact differs rfl

end BlackOS.Crc32
