import BlackOS.NetContract

/-! The payload that the parser reports for a packet. -/
namespace BlackOS.Net
open BlackOS.Library.Ram

/-- Whatever the structure held before, an accepted TCP or UDP packet has its payload inside the frame, and the
payload that is reported is the same for any two structures. -/
def Reported (b : Buffer) (len : Word) : Prop :=
  ∀ info info' : PacketInfo, (blackParsePacket b len info).1 = 0 → b.bytes 23 = 6 ∨ b.bytes 23 = 17 →
    (blackParsePacket b len info).2.info.payloadOffset.toNat +
        (blackParsePacket b len info).2.info.payloadLen.toNat ≤ len.toNat ∧
      (blackParsePacket b len info).2.info.payloadOffset = (blackParsePacket b len info').2.info.payloadOffset ∧
      (blackParsePacket b len info).2.info.payloadLen = (blackParsePacket b len info').2.info.payloadLen

theorem ihl_le (b : Buffer) : b.ihl.toNat ≤ 60 := by
  rw [Buffer.ihl,headerLength_toNat]
  omega

section Arms
variable (b : Buffer) (len : Word) (reached : b.Reaches len) (info : PacketInfo)
include reached

/-- A TCP packet is parsed but for a frame that ends before its header does. -/
theorem tcp_parsed (tcp : b.bytes 23 = 6) :
    ((blackParsePacket b len info).1 = 0 ↔ ¬(14 + b.ihl.toNat ≤ len.toNat ∧ len.toNat < 34 + b.ihl.toNat)) ∧
      ((blackParsePacket b len info).1 = 0 → (blackParsePacket b len info).2.info.payloadLen = info.payloadLen) := by
  have long := reached.2.1
  have header := ihl_le b
  have room : len - 14 - b.ihl < 20 ↔ 14 + b.ihl.toNat ≤ len.toNat ∧ len.toNat < 34 + b.ihl.toNat := by bv_omega
  rw [parse_reaches b len info reached,parseTransport,if_pos tcp,run_parseTcp]
  by_cases short : len - 14 - b.ihl < 20
  · rw [if_pos short]
    exact ⟨iff_of_false Int.noConfusion (not_not_intro (room.mp short)),fun accepted => Int.noConfusion accepted⟩
  · rw [if_neg short]
    exact ⟨iff_of_true rfl fun ends => short (room.mpr ends),fun accepted => rfl⟩

/-- A UDP packet is parsed but for a frame that ends before its header does, and its payload is as long as its length
field says, less the header. -/
theorem udp_parsed (udp : b.bytes 23 = 17) :
    ((blackParsePacket b len info).1 = 0 ↔ ¬(14 + b.ihl.toNat ≤ len.toNat ∧ len.toNat < 22 + b.ihl.toNat)) ∧
      ((blackParsePacket b len info).1 = 0 →
        (blackParsePacket b len info).2.info.payloadOffset = 14 + b.ihl.setWidth 16 + 8 ∧
          (blackParsePacket b len info).2.info.payloadLen = b.udpLength - 8) := by
  have long := reached.2.1
  have header := ihl_le b
  have other : ¬b.bytes 23 = 6 := by
    rw [udp]
    decide
  have room : len - 14 - b.ihl < 8 ↔ 14 + b.ihl.toNat ≤ len.toNat ∧ len.toNat < 22 + b.ihl.toNat := by bv_omega
  rw [parse_reaches b len info reached,parseTransport,if_neg other,if_pos udp,run_parseUdp]
  by_cases short : len - 14 - b.ihl < 8
  · rw [if_pos short]
    exact ⟨iff_of_false Int.noConfusion (not_not_intro (room.mp short)),fun accepted => Int.noConfusion accepted⟩
  · rw [if_neg short]
    exact ⟨iff_of_true rfl fun ends => short (room.mpr ends),fun accepted => ⟨rfl,rfl⟩⟩

end Arms

/-- In frames of at most 65535 bytes the parser reports the payload of a UDP packet whose length field is at least 8
and inside the frame, and of no TCP packet. -/
theorem payload_reported (b : Buffer) (len : Word) (short : len.toNat ≤ 65535) :
    Reported b len ↔ (b.Reaches len →
      (b.bytes 23 = 6 → 14 + b.ihl.toNat ≤ len.toNat ∧ len.toNat < 34 + b.ihl.toNat) ∧
      (b.bytes 23 = 17 → (14 + b.ihl.toNat ≤ len.toNat ∧ len.toNat < 22 + b.ihl.toNat) ∨
        (8 ≤ b.udpLength.toNat ∧ 14 + b.ihl.toNat + b.udpLength.toNat ≤ len.toNat))) := by
  by_cases reached : b.Reaches len
  · have header := ihl_le b
    have field := b.udpLength.isLt
    -- The offset and the length of a UDP payload add up to the end of the packet, unless the length wraps around.
    have payload : (14 + b.ihl.setWidth 16 + 8 : Half).toNat + (b.udpLength - 8).toNat ≤ len.toNat ↔
        8 ≤ b.udpLength.toNat ∧ 14 + b.ihl.toNat + b.udpLength.toNat ≤ len.toNat := by bv_omega
    constructor
    · intro reported _
      refine ⟨fun tcp => ?_,fun udp => ?_⟩
      · by_contra parsed
        have accepted (info : PacketInfo) := (tcp_parsed b len reached info tcp).1.mpr parsed
        have kept (info : PacketInfo) := (tcp_parsed b len reached info tcp).2 (accepted info)
        obtain ⟨_,_,same⟩ := reported blankInfo {blankInfo with payloadLen := 1} (accepted _) (.inl tcp)
        rw [kept,kept] at same
        exact absurd same (by decide)
      · refine or_iff_not_imp_left.mpr fun parsed => ?_
        have accepted := (udp_parsed b len reached blankInfo udp).1.mpr parsed
        obtain ⟨offset,length⟩ := (udp_parsed b len reached blankInfo udp).2 accepted
        obtain ⟨inside,_⟩ := reported blankInfo blankInfo accepted (.inr udp)
        rw [offset,length] at inside
        exact payload.mp inside
    · intro fine info info' accepted transport
      obtain ⟨noTcp,fits⟩ := fine reached
      rcases transport with tcp | udp
      · exact absurd (noTcp tcp) ((tcp_parsed b len reached info tcp).1.mp accepted)
      · have parsed := (udp_parsed b len reached info udp).1.mp accepted
        have accepted' := (udp_parsed b len reached info' udp).1.mpr parsed
        obtain ⟨offset,length⟩ := (udp_parsed b len reached info udp).2 accepted
        obtain ⟨offset',length'⟩ := (udp_parsed b len reached info' udp).2 accepted'
        rw [offset,length,offset',length']
        exact ⟨payload.mpr ((fits udp).resolve_left parsed),rfl,rfl⟩
  · refine iff_of_true (fun info info' accepted => ?_) fun reaches => absurd reaches reached
    exact absurd accepted (parse_rejects b len info reached).1

/-- A UDP packet of 42 bytes without a payload. -/
theorem payload_reported_empty : (42 : Word).toNat ≤ 65535 ∧
    Reported (frameOf [0,0,0,0,0,0,0,0,0,0,0,0,8,0,0x45,0,0,28,0,0,0,0,64,17,0,0,0,0,0,0,0,0,0,0,0,0,0,0,0,8,0,0]) 42 := by
  refine ⟨by decide,(payload_reported _ 42 (by decide)).mpr fun _ => ⟨fun tcp => absurd tcp (by decide),fun _ => ?_⟩⟩
  exact .inr ⟨by decide,by decide⟩

/-- A TCP packet of 54 bytes keeps the length that was in the structure. -/
theorem not_payload_reported : ¬Reported
    (frameOf [0,0,0,0,0,0,0,0,0,0,0,0,8,0,0x45,0,0,40,0,0,0,0,64,6,0,0,0,0,0,0,0,0,0,0,0,0,0,0,0,0,0,0,0,0,0,0,0x50,0]) 54 := by
  intro reported
  have inside := (reported {blankInfo with payloadLen := 1} blankInfo (by decide) (.inl (by decide))).1
  exact absurd inside (by decide)

end BlackOS.Net
