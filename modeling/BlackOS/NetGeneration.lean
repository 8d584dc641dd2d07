import BlackOS.NetChecksum

/-! The checksum of an IP header: what is generated for the header without its field, and what the validator takes. -/
namespace BlackOS.Net
open BlackOS.Library.Ram

/-- The checks of `black_validate_ipv4` before its sum. -/
structure Buffer.Checked (b : Buffer) (len : Nat) : Prop where
  present : b.isNull = false
  version : (b.bytes 0).toNat / 16 = 4
  header : 20 ≤ (headerLength (b.bytes 0)).toNat
  inside : (headerLength (b.bytes 0)).toNat ≤ (blackNtohs (b.half 2)).toNat
  whole : (blackNtohs (b.half 2)).toNat ≤ len
  ttl : b.bytes 8 ≠ 0

/-- The header with a checksum field of zero. -/
def Buffer.unsummed (b : Buffer) : Buffer := ⟨b.isNull,fun i => if i = 10 ∨ i = 11 then 0 else b.bytes i⟩

/-- The checksum field. -/
def Buffer.checksum (b : Buffer) : Half := b.bytes 10 ++ b.bytes 11

section Generation
variable (b : Buffer)

theorem checksum_toNat : b.checksum.toNat = (b.bytes 10).toNat * 256 + (b.bytes 11).toNat := by
  have low := (b.bytes 11).isLt
  rw [Buffer.checksum,BitVec.toNat_append,← Nat.shiftLeft_add_eq_or_of_lt low,Nat.shiftLeft_eq]

theorem unsummed_other (i : Nat) (other : i ≠ 10 ∧ i ≠ 11) : b.unsummed.bytes i = b.bytes i :=
  if_neg (not_or.mpr other)

theorem total_unsummed (n : Nat) (reaches : 6 ≤ n) : b.total n = b.unsummed.total n + b.checksum.toNat := by
  induction n, reaches using Nat.le_induction with
  | base =>
    have before : b.unsummed.total 5 = b.total 5 := by
      simp [Buffer.total,List.range_succ,Buffer.unsummed]
    rw [total_succ,total_succ b.unsummed,checksum_toNat,before]
    change b.total 5 + ((b.bytes 10).toNat * 256 + (b.bytes 11).toNat) = b.total 5 + (0 * 256 + 0) + _
    omega
  | succ n reaches ih =>
    rw [total_succ,total_succ b.unsummed,ih,unsummed_other b (n * 2) (by omega),
      unsummed_other b (n * 2 + 1) (by omega)]
    omega

/-- The generated checksum is what the folded sum leaves up to 65535. -/
theorem compute_toNat (words : Nat) (few : words ≤ 65536) : ∃ folded ≤ 65535,
    (blackComputeIpChecksum b (words * 2)).toNat = 65535 - folded ∧ folded % 65535 = b.total words % 65535 ∧
      (folded = 0 ↔ b.total words = 0) := by
  obtain ⟨bound,residue,zero⟩ := foldSum_spec (sumWords b words)
  rw [sumWords_toNat b words few] at residue zero
  have half : words * 2 / 2 = words := by omega
  have even : ¬words * 2 % 2 = 1 := by omega
  refine ⟨_,bound,?_,residue,zero⟩
  rw [blackComputeIpChecksum,half,if_neg even,BitVec.toNat_not,BitVec.toNat_setWidth,
    Nat.mod_eq_of_lt (by omega : (foldSum (sumWords b words)).toNat < 2 ^ 16)]

theorem checked_valid (len : Word) (checked : b.Checked len.toNat) : blackValidateIpv4 b len = 0 ↔
    b.total ((headerLength (b.bytes 0)).toNat / 2) % 65535 = 0 := by
  obtain ⟨present,version,header,inside,whole,ttl⟩ := checked
  rw [validateIpv4_iff b len present (by omega)]
  exact ⟨fun valid => valid.checksum,fun sums => ⟨version,header,inside,whole,ttl,sums⟩⟩

/-- A header that passes the other checks is valid exactly if its field is what is generated for it, or all ones where
that is zero. -/
theorem checksum_generated (len : Word) (checked : b.Checked len.toNat) :
    blackValidateIpv4 b len = 0 ↔
      b.checksum = blackComputeIpChecksum b.unsummed (headerLength (b.bytes 0)).toNat ∨
        (blackComputeIpChecksum b.unsummed (headerLength (b.bytes 0)).toNat = 0 ∧ b.checksum = 0xFFFF) := by
  rw [checked_valid b len checked]
  have length := headerLength_toNat (b.bytes 0)
  have header := checked.header
  obtain ⟨words,size⟩ : ∃ words, (headerLength (b.bytes 0)).toNat = words * 2 := ⟨(b.bytes 0).toNat % 16 * 2,by omega⟩
  have half : words * 2 / 2 = words := by omega
  have version : (b.unsummed.bytes 0).toNat / 16 = 4 := checked.version
  have positive := total_pos b.unsummed version (words - 1)
  have next : words - 1 + 1 = words := by omega
  obtain ⟨folded,bound,value,residue,zero⟩ := compute_toNat b.unsummed words (by omega)
  have field := b.checksum.isLt
  rw [next] at positive
  rw [size,half,total_unsummed b words (by omega),← BitVec.toNat_inj,← BitVec.toNat_inj,← BitVec.toNat_inj,value]
  change _ ↔ _ ∨ _ = 0 ∧ _ = 65535
  omega

end Generation

/-- A header whose words sum to zero without the field, and that carries all ones. -/
theorem checksum_generated_ones :
    (frameOf [0x45,0,0,20,0,0,0,0,1,0,0xFF,0xFF,0xB9,0xEB]).Checked (20 : Word).toNat ∧
      (blackValidateIpv4 (frameOf [0x45,0,0,20,0,0,0,0,1,0,0xFF,0xFF,0xB9,0xEB]) 20 = 0 ↔
        (frameOf [0x45,0,0,20,0,0,0,0,1,0,0xFF,0xFF,0xB9,0xEB]).checksum =
            blackComputeIpChecksum (frameOf [0x45,0,0,20,0,0,0,0,1,0,0xFF,0xFF,0xB9,0xEB]).unsummed 20 ∨
          (blackComputeIpChecksum (frameOf [0x45,0,0,20,0,0,0,0,1,0,0xFF,0xFF,0xB9,0xEB]).unsummed 20 = 0 ∧
            (frameOf [0x45,0,0,20,0,0,0,0,1,0,0xFF,0xFF,0xB9,0xEB]).checksum = 0xFFFF)) := by
  have checked : (frameOf [0x45,0,0,20,0,0,0,0,1,0,0xFF,0xFF,0xB9,0xEB]).Checked (20 : Word).toNat :=
    ⟨rfl,by decide,by decide,by decide,by decide,by decide⟩
  exact ⟨checked,checksum_generated _ 20 checked⟩

end BlackOS.Net
