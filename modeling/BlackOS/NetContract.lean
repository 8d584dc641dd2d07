import BlackOS.Net

/-! What the packet parser reads, and what its acceptance says about a frame. -/
namespace BlackOS.Net
open BlackOS.Library.Ram

/-- The header length of the frame's IP header, unchecked. -/
def Buffer.ihl (b : Buffer) : Word := headerLength (b.bytes 14)

/-- The frame gets past the parser's checks of the Ethernet header and the length. -/
def Buffer.Reaches (b : Buffer) (len : Word) : Prop :=
  b.isNull = false ∧ 34 ≤ len.toNat ∧ blackNtohs (b.half 12) = 0x0800

/-- The length field of the UDP header that follows the IP header. -/
def Buffer.udpLength (b : Buffer) : Half := blackNtohs (b.half (14 + b.ihl.toNat + 4))

/-- The parser when it comes to the transport header: its output so far, its reads and
whether the length of the transport data went below zero. -/
def atTransport (b : Buffer) (len : Word) (info : PacketInfo) : Parsing where
  info := {info with
    valid := 0
    ethertype := blackNtohs (b.half 12)
    ipVersion := 4
    ipProtocol := b.bytes 23
    srcIp := blackNtohl (b.word 26)
    dstIp := blackNtohl (b.word 30)
    ttl := b.bytes 22}
  reads := [12,13,14,23,26,27,28,29,30,31,32,33,22,23]
  underflow := decide (len - 14 < b.ihl)

/-- The arm that parses the transport header. -/
def parseTransport (b : Buffer) (len : Word) : Parser Int :=
  if b.bytes 23 = 6 then parseTcp b (14 + b.ihl.toNat) (len - 14 - b.ihl) b.ihl
  else if b.bytes 23 = 17 then parseUdp b (14 + b.ihl.toNat) (len - 14 - b.ihl) b.ihl
  else do
    setInfo fun x => {x with valid := 1}
    return 0

section Running
variable (b : Buffer) (i : Nat) (p : Parsing)

@[simp]
theorem run_read8 : (read8 b i).run p = (b.bytes i,{p with reads := p.reads ++ [i]}) := by
  rfl

@[simp]
theorem run_read16 : (read16 b i).run p = (b.half i,{p with reads := p.reads ++ [i,i + 1]}) := by
  rfl

@[simp]
theorem run_read32 :
    (read32 b i).run p = (b.word i,{p with reads := p.reads ++ [i,i + 1,i + 2,i + 3]}) := by
  rfl

@[simp]
theorem run_sub {w : Nat} (x y : BitVec w) :
    (sub x y).run p = (x - y,{p with underflow := p.underflow || decide (x < y)}) := by
  rfl

@[simp]
theorem run_setInfo (f : PacketInfo → PacketInfo) :
    (setInfo f).run p = ((),{p with info := f p.info}) := by
  rfl

@[simp]
theorem run_return {α : Type} (a : α) : (pure a : Parser α).run p = (a,p) := by
  rfl

theorem run_then {α β : Type} (x : Parser α) (f : α → Parser β) :
    (x >>= f).run p = (f (x.run p).1).run (x.run p).2 := by
  rfl

end Running

theorem not_short (b : Buffer) (len size : Word) (nonnull : b.isNull = false)
    (long : size.toNat ≤ len.toNat) : ¬ (b.isNull = true ∨ len < size) := by
  rw [nonnull]
  exact not_or_intro Bool.false_ne_true (by bv_omega)

theorem parse_reaches (b : Buffer) (len : Word) (info : PacketInfo) (reached : b.Reaches len) :
    blackParsePacket b len info = (parseTransport b len).run (atTransport b len info) := by
  obtain ⟨nonnull,long,etype⟩ := reached
  have wide : ¬ len < 14 := by bv_omega
  have present := not_short b len 14 nonnull (by bv_omega)
  have room : ¬ len - 14 < 20 := by bv_omega
  have positive : decide (len < 14) = false := decide_eq_false wide
  simp only [blackParsePacket,parsePacket,run_then,run_setInfo,run_read8,run_read16,
    run_read32,run_sub,if_neg present,ne_eq,etype,not_true_eq_false,if_false,if_neg room,positive,
    atTransport]
  rfl

theorem parse_rejects (b : Buffer) (len : Word) (info : PacketInfo) (rejected : ¬ b.Reaches len) :
    (blackParsePacket b len info).1 ≠ 0 ∧ (blackParsePacket b len info).2.underflow = false ∧
      ∀ i ∈ (blackParsePacket b len info).2.reads, i < len.toNat := by
  by_cases short : b.isNull = true ∨ len < 14
  · simp only [blackParsePacket,parsePacket,run_then,run_setInfo,if_pos short,run_return]
    exact ⟨by decide,trivial,fun i read => absurd read List.not_mem_nil⟩
  have wide : ¬ len < 14 := fun narrow => short (.inr narrow)
  have header : ∀ i ∈ [12,13], i < len.toNat := by
    intro i read
    simp only [List.mem_cons,List.not_mem_nil,or_false] at read
    bv_omega
  by_cases etype : blackNtohs (b.half 12) = 0x0800
  · have room : len - 14 < 20 := by
      by_contra room
      refine rejected ⟨?_,?_,etype⟩
      · exact Bool.eq_false_iff.mpr fun null => short (.inl null)
      · bv_omega
    have positive : decide (len < 14) = false := decide_eq_false wide
    simp only [blackParsePacket,parsePacket,run_then,run_setInfo,run_read16,run_sub,if_neg short,
      ne_eq,etype,not_true_eq_false,if_false,if_pos room,positive,run_return]
    exact ⟨by decide,rfl,header⟩
  · simp only [blackParsePacket,parsePacket,run_then,run_setInfo,run_read16,if_neg short,
      ne_eq,etype,not_false_eq_true,if_true,run_return]
    exact ⟨by decide,trivial,header⟩

theorem run_parseTcp (b : Buffer) (t : Nat) (room ihl : Word) (p : Parsing) :
    (parseTcp b t room ihl).run p =
      if room < 20 then (-4,p) else (0,{p with
        info := {p.info with
          srcPort := blackNtohs (b.half t)
          dstPort := blackNtohs (b.half (t + 2))
          payloadOffset := 14 + ihl.setWidth 16 + dataOffset (b.half (t + 12))
          flags := (blackNtohs (b.half (t + 12)) &&& 0x3F#16).setWidth 8
          valid := 1}
        reads := p.reads ++ [t,t + 1,t + 2,t + 3,t + 12,t + 13,t + 12,t + 13]}) := by
  by_cases short : room < 20
  · simp only [parseTcp,if_pos short,run_return]
  · simp only [parseTcp,if_neg short,run_then,run_read16,run_setInfo,run_return,List.append_assoc]
    rfl

theorem run_parseUdp (b : Buffer) (t : Nat) (room ihl : Word) (p : Parsing) :
    (parseUdp b t room ihl).run p =
      if room < 8 then (-5,p) else (0,{
        info := {p.info with
          srcPort := blackNtohs (b.half t)
          dstPort := blackNtohs (b.half (t + 2))
          payloadOffset := 14 + ihl.setWidth 16 + 8
          payloadLen := blackNtohs (b.half (t + 4)) - 8
          valid := 1}
        reads := p.reads ++ [t,t + 1,t + 2,t + 3,t + 4,t + 5]
        underflow := p.underflow || decide (blackNtohs (b.half (t + 4)) < 8)}) := by
  by_cases short : room < 8
  · simp only [parseUdp,if_pos short,run_return]
  · simp only [parseUdp,if_neg short,run_then,run_read16,run_sub,run_setInfo,run_return,
      List.append_assoc]
    rfl

theorem headerLength_toNat (v : Byte) : (headerLength v).toNat = v.toNat % 16 * 4 := by
  have nibble : (v &&& 0xF#8).toNat = v.toNat % 16 := by
    rw [BitVec.toNat_and]
    exact Nat.and_two_pow_sub_one_eq_mod v.toNat 4
  rw [headerLength,BitVec.toNat_mul,BitVec.toNat_setWidth,nibble]
  bv_omega

/-- Nothing has gone wrong so far: no subtraction below zero and no read past the end. -/
def Parsing.Inside (p : Parsing) (len : Word) : Prop :=
  p.underflow = false ∧ ∀ i ∈ p.reads, i < len.toNat

theorem reads_before (b : Buffer) (len : Word) (info : PacketInfo) (reached : b.Reaches len) :
    ∀ i ∈ (atTransport b len info).reads, i < len.toNat := by
  have long := reached.2.1
  intro i read
  simp only [atTransport,List.mem_cons,List.not_mem_nil,or_false] at read
  omega

theorem atTransport_inside (b : Buffer) (len : Word) (info : PacketInfo) (reached : b.Reaches len) :
    (atTransport b len info).Inside len ↔ b.ihl.toNat ≤ len.toNat - 14 := by
  obtain ⟨nonnull,long,etype⟩ := reached
  have apart : len - 14 < b.ihl ↔ ¬ b.ihl.toNat ≤ len.toNat - 14 := by bv_omega
  constructor
  · intro inside
    have kept := inside.1
    simp only [atTransport,decide_eq_false_iff_not,apart,not_not] at kept
    exact kept
  · intro fits
    refine ⟨?_,reads_before b len info ⟨nonnull,long,etype⟩⟩
    simp only [atTransport,decide_eq_false_iff_not,apart,not_not]
    exact fits

/-- The reads of a transport header that fits stay inside the frame. -/
theorem transport_reads (p : Parsing) (len : Word) (t size : Nat) (more : List Nat)
    (inside : p.Inside len) (fits : t + size ≤ len.toNat) (near : ∀ i ∈ more, i < t + size) :
    ∀ i ∈ p.reads ++ more, i < len.toNat := by
  intro i read
  rcases List.mem_append.mp read with old | new
  · exact inside.2 i old
  · exact lt_of_lt_of_le (near i new) fits

/-- A subtraction that went below zero stays on the record. -/
theorem transport_underflow (b : Buffer) (len : Word) (p : Parsing) (below : p.underflow = true) :
    ((parseTransport b len).run p).2.underflow = true := by
  unfold parseTransport
  split
  · rw [run_parseTcp]
    split
    · exact below
    · exact below
  split
  · rw [run_parseUdp]
    split
    · exact below
    · simp only [below,Bool.true_or]
  · exact below

theorem tcp_inside (b : Buffer) (len : Word) (p : Parsing) (t : Nat) (room ihl : Word)
    (inside : p.Inside len) (fits : t + room.toNat = len.toNat) :
    ((parseTcp b t room ihl).run p).2.Inside len := by
  rw [run_parseTcp]
  split
  · exact inside
  · rename_i long
    have enough : t + 20 ≤ len.toNat := by bv_omega
    refine ⟨inside.1,transport_reads p len t 20 _ inside enough ?_⟩
    intro i read
    simp only [List.mem_cons,List.not_mem_nil,or_false] at read
    omega

theorem udp_inside (b : Buffer) (len : Word) (p : Parsing) (t : Nat) (room ihl : Word)
    (inside : p.Inside len) (fits : t + room.toNat = len.toNat) :
    ((parseUdp b t room ihl).run p).2.Inside len ↔
      (8 ≤ room.toNat → 8 ≤ (blackNtohs (b.half (t + 4))).toNat) := by
  have short : room < 8 ↔ ¬ 8 ≤ room.toNat := by bv_omega
  have small : blackNtohs (b.half (t + 4)) < 8 ↔ ¬ 8 ≤ (blackNtohs (b.half (t + 4))).toNat := by
    bv_omega
  rw [run_parseUdp]
  split
  · rename_i cut
    exact ⟨fun kept enough => absurd enough (short.mp cut),fun fine => inside⟩
  · rename_i long
    have enough : 8 ≤ room.toNat := not_not.mp fun less => long (short.mpr less)
    have reads := transport_reads p len t 8 [t,t + 1,t + 2,t + 3,t + 4,t + 5] inside (by omega)
      (by
        intro i read
        simp only [List.mem_cons,List.not_mem_nil,or_false] at read
        omega)
    constructor
    · intro kept room
      have fine := kept.1
      simp only [inside.1,Bool.false_or,decide_eq_false_iff_not,small,not_not] at fine
      exact fine
    · intro fine
      refine ⟨?_,reads⟩
      simp only [inside.1,Bool.false_or,decide_eq_false_iff_not,small,not_not]
      exact fine enough

/-- The parser stays inside the frame exactly when the header length fits the frame and
a UDP header that fits gives a length of eight at least. -/
theorem parser_inside (b : Buffer) (len : Word) (info : PacketInfo) :
    (blackParsePacket b len info).2.Inside len ↔
      (b.Reaches len → b.ihl.toNat ≤ len.toNat - 14 ∧
        (b.bytes 23 = 17 → 8 ≤ len.toNat - 14 - b.ihl.toNat → 8 ≤ b.udpLength.toNat)) := by
  by_cases reached : b.Reaches len
  · have start := atTransport_inside b len info reached
    rw [parse_reaches b len info reached]
    by_cases fits : b.ihl.toNat ≤ len.toNat - 14
    · have inside := start.mpr fits
      have long := reached.2.1
      have room : (len - 14 - b.ihl).toNat = len.toNat - 14 - b.ihl.toNat := by bv_omega
      have whole : 14 + b.ihl.toNat + (len - 14 - b.ihl).toNat = len.toNat := by omega
      unfold parseTransport
      split
      · rename_i tcp
        have other : ¬ b.bytes 23 = 17 := by
          rw [tcp]
          decide
        exact ⟨fun kept arrives => ⟨fits,fun udp => absurd udp other⟩,
          fun fine => tcp_inside b len _ _ _ _ inside whole⟩
      split
      · rename_i udp
        rw [udp_inside b len _ _ _ _ inside whole,room]
        exact ⟨fun fine arrives => ⟨fits,fun proto => fine⟩,fun fine => (fine reached).2 udp⟩
      · rename_i other
        exact ⟨fun kept arrives => ⟨fits,fun udp => absurd udp other⟩,fun fine => inside⟩
    · have below : (atTransport b len info).underflow = true := by
        by_contra above
        exact fits (start.mp ⟨Bool.eq_false_iff.mpr above,(reads_before b len info reached)⟩)
      have lost := transport_underflow b len _ below
      constructor
      · intro inside
        exact absurd (inside.1.symm.trans lost) Bool.false_ne_true
      · intro fine
        exact absurd (fine reached).1 fits
  · have outcome := parse_rejects b len info reached
    exact ⟨fun inside arrives => absurd arrives reached,fun fine => outcome.2⟩

/-- A frame whose first bytes are given and whose other bytes are zero. -/
def frameOf (bytes : List Byte) : Buffer := ⟨false,fun i => bytes.getD i 0⟩

def blankInfo : PacketInfo := ⟨0,0,0,0,0,0,0,0,0,0,0,0⟩

/-- A frame of 34 bytes whose header length says 60: the transport length goes below zero
and the ports are read 40 bytes past the end. -/
theorem parser_outside :
    ¬ (blackParsePacket (frameOf [0,0,0,0,0,0,0,0,0,0,0,0,8,0,0x4F,0,0,0,0,0,0,0,0,6]) 34
      blankInfo).2.Inside 34 := by
  intro inside
  exact absurd inside.1 (by decide)

end BlackOS.Net
