import BlackOS.NetContract

/-! What the validators accept, in the fields of a frame, and which of the frames that
the parser accepts they accept as well. -/
namespace BlackOS.Net
open BlackOS.Library.Ram

/-- The sum of the first big-endian 16-bit words, unbounded. -/
def Buffer.total (b : Buffer) (words : Nat) : Nat :=
  ((List.range words).map fun i => (b.bytes (i * 2)).toNat * 256 + (b.bytes (i * 2 + 1)).toNat).sum

theorem total_succ (b : Buffer) (n : Nat) :
    b.total (n + 1) = b.total n + ((b.bytes (n * 2)).toNat * 256 + (b.bytes (n * 2 + 1)).toNat) := by
  simp [Buffer.total,List.range_succ]

theorem total_le (b : Buffer) (n : Nat) : b.total n ≤ n * 65535 := by
  induction n with
  | zero => exact Nat.le_refl 0
  | succ n ih =>
    have high := (b.bytes (n * 2)).isLt
    have low := (b.bytes (n * 2 + 1)).isLt
    rw [total_succ]
    omega

theorem word_toNat (high low : Byte) :
    ((high.setWidth 16 <<< 8 ||| low.setWidth 16).setWidth 32 : Word).toNat =
      high.toNat * 256 + low.toNat := by
  have top := high.isLt
  have bottom := low.isLt
  have shifted : (high.setWidth 16 <<< 8).toNat = high.toNat <<< 8 := by
    rw [BitVec.toNat_shiftLeft,BitVec.toNat_setWidth,Nat.mod_eq_of_lt (by omega : high.toNat < 2 ^ 16)]
    exact Nat.mod_eq_of_lt (by rw [Nat.shiftLeft_eq]; omega)
  rw [BitVec.toNat_setWidth,BitVec.toNat_or,shifted,BitVec.toNat_setWidth,
    Nat.mod_eq_of_lt (by omega : low.toNat < 2 ^ 16),← Nat.shiftLeft_add_eq_or_of_lt bottom,
    Nat.shiftLeft_eq]
  exact Nat.mod_eq_of_lt (by omega)

/-- Up to 65536 words the sum does not overflow. -/
theorem sumWords_toNat (b : Buffer) (n : Nat) (few : n ≤ 65536) :
    (sumWords b n).toNat = b.total n := by
  induction n with
  | zero => rfl
  | succ n ih =>
    have before : (sumWords b n).toNat = b.total n := ih (by omega)
    have bound := total_le b (n + 1)
    have step : sumWords b (n + 1) = sumWords b n +
        ((b.bytes (n * 2)).setWidth 16 <<< 8 ||| (b.bytes (n * 2 + 1)).setWidth 16).setWidth 32 := by
      simp [sumWords,List.range_succ]
    rw [total_succ] at bound ⊢
    rw [step,BitVec.toNat_add,before,word_toNat]
    exact Nat.mod_eq_of_lt (by omega)

/-- Folding the carries keeps the residue modulo 65535 and whether the sum is zero. -/
theorem foldSum_spec (sum : Word) :
    (foldSum sum).toNat ≤ 65535 ∧ (foldSum sum).toNat % 65535 = sum.toNat % 65535 ∧
      ((foldSum sum).toNat = 0 ↔ sum.toNat = 0) := by
  fun_induction foldSum sum with
  | case1 sum large ih =>
    obtain ⟨bound,residue,zero⟩ := ih
    have big : 0xFFFF < sum.toNat := BitVec.lt_def.mp large
    have whole := sum.isLt
    rw [folded_toNat] at residue zero
    refine ⟨bound,?_,?_⟩
    · rw [residue]
      omega
    · rw [zero]
      omega
  | case2 sum small =>
    refine ⟨?_,rfl,Iff.rfl⟩
    bv_omega

theorem foldSum_full (sum : Word) :
    foldSum sum = 0xFFFF ↔ sum.toNat ≠ 0 ∧ sum.toNat % 65535 = 0 := by
  have spec := foldSum_spec sum
  bv_omega

theorem validateEthernet_ipv4 (b : Buffer) (len : Word) (reached : b.Reaches len) :
    blackValidateEthernet b len = 0 := by
  obtain ⟨nonnull,long,etype⟩ := reached
  have present := not_short b len 14 nonnull (by bv_omega)
  simp only [blackValidateEthernet,if_neg present,etype]
  rfl

/-- What the IPv4 validator accepts. -/
structure Buffer.Ipv4 (b : Buffer) (len : Nat) : Prop where
  version : (b.bytes 0).toNat / 16 = 4
  header : 20 ≤ (headerLength (b.bytes 0)).toNat
  inside : (headerLength (b.bytes 0)).toNat ≤ (blackNtohs (b.half 2)).toNat
  whole : (blackNtohs (b.half 2)).toNat ≤ len
  ttl : b.bytes 8 ≠ 0
  checksum : b.total ((headerLength (b.bytes 0)).toNat / 2) % 65535 = 0

theorem nibble_toNat {w : Nat} (v : BitVec w) (k : Nat) (top : w = k + 4) :
    ((v >>> k) &&& BitVec.ofNat w 15).toNat = v.toNat / 2 ^ k := by
  have size : v.toNat < 2 ^ (k + 4) := lt_of_lt_of_eq v.isLt (congrArg (2 ^ ·) top)
  have fits : v.toNat / 2 ^ k < 2 ^ 4 := by
    rw [Nat.pow_add] at size
    exact Nat.div_lt_of_lt_mul size
  have mask : 15 < 2 ^ w := by
    rw [top]
    exact lt_of_lt_of_le (by decide : 15 < 2 ^ 4) (Nat.pow_le_pow_right (by decide) (by omega))
  rw [BitVec.toNat_and,BitVec.toNat_ushiftRight,Nat.shiftRight_eq_div_pow,BitVec.toNat_ofNat,
    Nat.mod_eq_of_lt mask]
  exact (Nat.and_two_pow_sub_one_eq_mod (v.toNat / 2 ^ k) 4).trans (Nat.mod_eq_of_lt fits)

theorem version_iff (v : Byte) : (v >>> 4) &&& 0xF#8 = 4 ↔ v.toNat / 16 = 4 := by
  rw [← BitVec.toNat_inj,nibble_toNat v 4 rfl]
  rfl

/-- A header of version 4 does not sum to zero. -/
theorem total_pos (b : Buffer) (version : (b.bytes 0).toNat / 16 = 4) (n : Nat) : 0 < b.total (n + 1) := by
  induction n with
  | zero =>
    have first : 0 < (b.bytes (0 * 2)).toNat := by
      rw [Nat.zero_mul]
      omega
    rw [total_succ]
    omega
  | succ n ih =>
    rw [total_succ]
    omega

theorem checksum_iff (b : Buffer) (version : (b.bytes 0).toNat / 16 = 4) (words : Nat)
    (some : 0 < words) (few : words ≤ 65536) :
    foldSum (sumWords b words) = 0xFFFF ↔ b.total words % 65535 = 0 := by
  obtain ⟨n,rfl⟩ := Nat.exists_eq_add_of_lt some
  rw [foldSum_full,sumWords_toNat b _ few]
  exact ⟨fun full => full.2,fun residue => ⟨(total_pos b version (0 + n)).ne',residue⟩⟩

theorem validateIpv4_iff (b : Buffer) (len : Word) (nonnull : b.isNull = false)
    (long : 20 ≤ len.toNat) : blackValidateIpv4 b len = 0 ↔ b.Ipv4 len.toNat := by
  have present := not_short b len 20 nonnull long
  have size := headerLength_toNat (b.bytes 0)
  have wide : ((blackNtohs (b.half 2)).setWidth 32 : Word).toNat = (blackNtohs (b.half 2)).toNat := by
    bv_omega
  simp only [blackValidateIpv4,if_neg present]
  split
  · rename_i other
    exact iff_of_false (by decide) fun valid => other ((version_iff _).mpr valid.version)
  rename_i version
  have four := (version_iff _).mp (not_not.mp version)
  split
  · rename_i short
    refine iff_of_false (by decide) fun valid => ?_
    have header := valid.header
    bv_omega
  split
  · rename_i cut
    refine iff_of_false (by decide) fun valid => ?_
    have inside := valid.inside
    have whole := valid.whole
    bv_omega
  split
  · rename_i small
    refine iff_of_false (by decide) fun valid => ?_
    have inside := valid.inside
    bv_omega
  split
  · rename_i large
    refine iff_of_false (by decide) fun valid => ?_
    have whole := valid.whole
    bv_omega
  split
  · rename_i expired
    exact iff_of_false (by decide) fun valid => valid.ttl expired
  rename_i header fits inside whole alive
  have long : 20 ≤ (headerLength (b.bytes 0)).toNat := by bv_omega
  have sum := checksum_iff b four ((headerLength (b.bytes 0)).toNat / 2) (by omega) (by omega)
  split
  · rename_i wrong
    exact iff_of_false (by decide) fun valid => wrong (sum.mpr valid.checksum)
  · rename_i right
    refine iff_of_true rfl ⟨four,long,?_,?_,alive,sum.mp (not_not.mp right)⟩
    · bv_omega
    · bv_omega

/-- What the TCP validator accepts. -/
def Buffer.Tcp (b : Buffer) (len : Nat) : Prop :=
  20 ≤ (blackNtohs (b.half 12)).toNat / 4096 * 4 ∧ (blackNtohs (b.half 12)).toNat / 4096 * 4 ≤ len

theorem offset_toNat (field : Half) :
    (((field >>> 12) &&& 0xF#16).setWidth 32 * 4#32 : Word).toNat = field.toNat / 4096 * 4 := by
  have nibble := nibble_toNat field 12 rfl
  rw [BitVec.toNat_mul,BitVec.toNat_setWidth,nibble]
  bv_omega

theorem validateTcp_iff (b : Buffer) (len : Word) (nonnull : b.isNull = false)
    (long : 20 ≤ len.toNat) : blackValidateTcp b len = 0 ↔ b.Tcp len.toNat := by
  have present := not_short b len 20 nonnull long
  have offset : ((((blackNtohs (b.half 12) >>> 12) &&& 0xF#16).setWidth 32 : Word) * 4#32).toNat =
      (blackNtohs (b.half 12)).toNat / 4096 * 4 := offset_toNat _
  simp only [blackValidateTcp,if_neg present,Buffer.Tcp]
  split
  · rename_i small
    refine iff_of_false (by decide) ?_
    bv_omega
  split
  · rename_i large
    refine iff_of_false (by decide) ?_
    bv_omega
  · refine iff_of_true rfl ?_
    bv_omega

/-- What the UDP validator accepts. -/
def Buffer.Udp (b : Buffer) (len : Nat) : Prop :=
  8 ≤ (blackNtohs (b.half 4)).toNat ∧ (blackNtohs (b.half 4)).toNat ≤ len

theorem validateUdp_iff (b : Buffer) (len : Word) (nonnull : b.isNull = false)
    (long : 8 ≤ len.toNat) : blackValidateUdp b len = 0 ↔ b.Udp len.toNat := by
  have present := not_short b len 8 nonnull long
  have wide : ((blackNtohs (b.half 4)).setWidth 32 : Word).toNat = (blackNtohs (b.half 4)).toNat := by
    bv_omega
  simp only [blackValidateUdp,if_neg present,Buffer.Udp]
  split
  · rename_i small
    refine iff_of_false (by decide) ?_
    bv_omega
  split
  · rename_i large
    refine iff_of_false (by decide) ?_
    bv_omega
  · refine iff_of_true rfl ?_
    bv_omega

/-- The length of the transport data as the parser computes it. -/
def Buffer.room (b : Buffer) (len : Word) : Word := len - 14 - b.ihl

theorem parse_accepts (b : Buffer) (len : Word) (info : PacketInfo) :
    (blackParsePacket b len info).1 = 0 ↔ b.Reaches len ∧
      (b.bytes 23 = 6 → 20 ≤ (b.room len).toNat) ∧ (b.bytes 23 = 17 → 8 ≤ (b.room len).toNat) := by
  by_cases reached : b.Reaches len
  · rw [parse_reaches b len info reached]
    unfold parseTransport Buffer.room
    split
    · rename_i tcp
      have other : ¬ b.bytes 23 = 17 := by
        rw [tcp]
        decide
      rw [run_parseTcp]
      split
      · rename_i short
        refine iff_of_false (by decide : ¬ (-4 : Int) = 0) fun accepted => ?_
        have long := accepted.2.1 tcp
        bv_omega
      · rename_i long
        refine iff_of_true rfl ⟨reached,fun proto => ?_,fun udp => absurd udp other⟩
        bv_omega
    rename_i notTcp
    split
    · rename_i udp
      rw [run_parseUdp]
      split
      · rename_i short
        refine iff_of_false (by decide : ¬ (-5 : Int) = 0) fun accepted => ?_
        have long := accepted.2.2 udp
        bv_omega
      · rename_i long
        refine iff_of_true rfl ⟨reached,fun tcp => absurd tcp notTcp,fun proto => ?_⟩
        bv_omega
    · rename_i notUdp
      exact iff_of_true rfl ⟨reached,fun tcp => absurd tcp notTcp,fun udp => absurd udp notUdp⟩
  · exact iff_of_false (parse_rejects b len info reached).1 fun accepted => reached accepted.1

/-- Parser and validators agree exactly on the frames that, if the parser accepts them,
have a sound IP header and a sound transport header. -/
theorem parser_agrees (b : Buffer) (len : Word) (info : PacketInfo) :
    ((blackParsePacket b len info).1 = 0 →
      blackValidateEthernet b len = 0 ∧ blackValidateIpv4 (b.add 14) (len - 14) = 0 ∧
      (b.bytes 23 = 6 → blackValidateTcp (b.add (14 + b.ihl.toNat)) (b.room len) = 0) ∧
      (b.bytes 23 = 17 → blackValidateUdp (b.add (14 + b.ihl.toNat)) (b.room len) = 0)) ↔
    (b.Reaches len → (b.bytes 23 = 6 → 20 ≤ (b.room len).toNat) →
      (b.bytes 23 = 17 → 8 ≤ (b.room len).toNat) →
      (b.add 14).Ipv4 (len.toNat - 14) ∧
      (b.bytes 23 = 6 → (b.add (14 + b.ihl.toNat)).Tcp (b.room len).toNat) ∧
      (b.bytes 23 = 17 → (b.add (14 + b.ihl.toNat)).Udp (b.room len).toNat)) := by
  rw [parse_accepts]
  have ipv4 : b.Reaches len →
      (blackValidateIpv4 (b.add 14) (len - 14) = 0 ↔ (b.add 14).Ipv4 (len.toNat - 14)) := by
    intro reached
    have long := reached.2.1
    have rest : (len - 14).toNat = len.toNat - 14 := by bv_omega
    rw [← rest]
    exact validateIpv4_iff _ _ reached.1 (by omega)
  constructor
  · intro agree reached tcpRoom udpRoom
    obtain ⟨ethernet,ip,tcp,udp⟩ := agree ⟨reached,tcpRoom,udpRoom⟩
    refine ⟨(ipv4 reached).mp ip,?_,?_⟩
    · intro proto
      exact (validateTcp_iff (b.add (14 + b.ihl.toNat)) _ reached.1 (tcpRoom proto)).mp (tcp proto)
    · intro proto
      exact (validateUdp_iff (b.add (14 + b.ihl.toNat)) _ reached.1 (udpRoom proto)).mp (udp proto)
  · intro sound accepted
    obtain ⟨reached,tcpRoom,udpRoom⟩ := accepted
    obtain ⟨ip,tcp,udp⟩ := sound reached tcpRoom udpRoom
    refine ⟨validateEthernet_ipv4 b len reached,(ipv4 reached).mpr ip,?_,?_⟩
    · intro proto
      exact (validateTcp_iff (b.add (14 + b.ihl.toNat)) _ reached.1 (tcpRoom proto)).mpr (tcp proto)
    · intro proto
      exact (validateUdp_iff (b.add (14 + b.ihl.toNat)) _ reached.1 (udpRoom proto)).mpr (udp proto)

/-- A frame whose time to live is zero: the parser accepts it, the IPv4 validator does not. -/
def expiredFrame : Buffer := frameOf [0,0,0,0,0,0,0,0,0,0,0,0,8,0,0x45,0,0,20]

theorem parser_disagrees :
    ¬ ((blackParsePacket expiredFrame 34 blankInfo).1 = 0 →
      blackValidateEthernet expiredFrame 34 = 0 ∧
      blackValidateIpv4 (expiredFrame.add 14) (34 - 14) = 0 ∧
      (expiredFrame.bytes 23 = 6 →
        blackValidateTcp (expiredFrame.add (14 + expiredFrame.ihl.toNat)) (expiredFrame.room 34) = 0) ∧
      (expiredFrame.bytes 23 = 17 →
        blackValidateUdp (expiredFrame.add (14 + expiredFrame.ihl.toNat)) (expiredFrame.room 34) = 0)) := by
  decide

end BlackOS.Net
