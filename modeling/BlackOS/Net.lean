import BlackOS.Library.Ram

/-! The packet parser and the validators of `rust/black_net`. A frame is the bytes
behind a pointer; what lies past its length can be read as well, as raw pointers
allow it. The parser records which bytes it reads and whether a subtraction wraps
around, as it does in a release build for a 32-bit target. -/
namespace BlackOS.Net
open BlackOS.Library.Ram

abbrev Half := BitVec 16

/-- The bytes behind a pointer, or the null pointer. -/
structure Buffer where
  isNull : Bool
  bytes : Nat → Byte

/-- `black_data.add(n)`. -/
def Buffer.add (b : Buffer) (n : Nat) : Buffer := ⟨b.isNull,fun i => b.bytes (n + i)⟩

/-- A packed 16-bit field, as a little-endian machine loads it. -/
def Buffer.half (b : Buffer) (i : Nat) : Half := b.bytes (i + 1) ++ b.bytes i

def Buffer.word (b : Buffer) (i : Nat) : Word := b.half (i + 2) ++ b.half i

def blackNtohs (val : Half) : Half := val >>> 8 ||| val <<< 8

def blackNtohl (val : Word) : Word :=
  (val &&& 0xFF#32) <<< 24 ||| (val &&& 0xFF00#32) <<< 8 ||| (val &&& 0xFF0000#32) >>> 8 |||
    (val &&& 0xFF000000#32) >>> 24

def blackValidateEthernet (b : Buffer) (len : Word) : Int :=
  if b.isNull ∨ len < 14 then -1 else
  let etype := blackNtohs (b.half 12)
  if etype ≠ 0x0800 ∧ etype ≠ 0x0806 ∧ etype ≠ 0x86DD then -2 else 0

/-- The header length in bytes that a version and header length byte gives. -/
def headerLength (verIhl : Byte) : Word := (verIhl &&& 0xF#8).setWidth 32 * 4#32

/-- The sum of the first big-endian 16-bit words. -/
def sumWords (b : Buffer) (words : Nat) : Word :=
  (List.range words).foldl (fun sum i =>
    sum + ((b.bytes (i * 2)).setWidth 16 <<< 8 ||| (b.bytes (i * 2 + 1)).setWidth 16).setWidth 32) 0

theorem folded_toNat (sum : Word) :
    ((sum &&& 0xFFFF#32) + (sum >>> 16)).toNat = sum.toNat % 65536 + sum.toNat / 65536 := by
  have low : (sum &&& 0xFFFF#32).toNat = sum.toNat % 65536 := by
    rw [BitVec.toNat_and]
    exact Nat.and_two_pow_sub_one_eq_mod sum.toNat 16
  have high : (sum >>> 16).toNat = sum.toNat / 65536 := by
    rw [BitVec.toNat_ushiftRight,Nat.shiftRight_eq_div_pow]
  have bound : sum.toNat % 65536 + sum.toNat / 65536 < 2 ^ 32 := by
    have whole := sum.isLt
    omega
  rw [BitVec.toNat_add,low,high]
  exact Nat.mod_eq_of_lt bound

/-- The loop that folds the carries back into 16 bits. -/
def foldSum (sum : Word) : Word :=
  if 0xFFFF < sum then foldSum ((sum &&& 0xFFFF#32) + (sum >>> 16)) else sum
  termination_by sum.toNat
  decreasing_by
    rename_i large
    have big : 0xFFFF < sum.toNat := BitVec.lt_def.mp large
    rw [folded_toNat]
    omega

def blackValidateIpv4 (b : Buffer) (len : Word) : Int :=
  if b.isNull ∨ len < 20 then -1 else
  let ver := (b.bytes 0 >>> 4) &&& 0xF#8
  let ihl := headerLength (b.bytes 0)
  if ver ≠ 4 then -2 else
  if ihl < 20 then -3 else
  if len < ihl then -4 else
  let total : Word := (blackNtohs (b.half 2)).setWidth 32
  if total < ihl then -5 else
  if len < total then -6 else
  if b.bytes 8 = 0 then -7 else
  if foldSum (sumWords b (ihl.toNat / 2)) ≠ 0xFFFF then -8 else 0

/-- The data offset in bytes of a TCP header. -/
def dataOffset (offsetFlags : Half) : Half := ((blackNtohs offsetFlags >>> 12) &&& 0xF#16) * 4#16

def blackValidateTcp (b : Buffer) (len : Word) : Int :=
  if b.isNull ∨ len < 20 then -1 else
  let offset : Word := ((blackNtohs (b.half 12) >>> 12) &&& 0xF#16).setWidth 32 * 4#32
  if offset < 20 then -2 else
  if len < offset then -3 else 0

def blackValidateUdp (b : Buffer) (len : Word) : Int :=
  if b.isNull ∨ len < 8 then -1 else
  let udpLen : Word := (blackNtohs (b.half 4)).setWidth 32
  if udpLen < 8 then -2 else
  if len < udpLen then -3 else 0

/-- `black_packet_info`. -/
structure PacketInfo where
  valid : Word
  ethertype : Half
  ipVersion : Byte
  ipProtocol : Byte
  srcIp : Word
  dstIp : Word
  srcPort : Half
  dstPort : Half
  payloadOffset : Half
  payloadLen : Half
  ttl : Byte
  flags : Byte

/-- The parser at work: its output so far, the indices it has read, and whether a
subtraction has gone below zero. -/
structure Parsing where
  info : PacketInfo
  reads : List Nat
  underflow : Bool

abbrev Parser := StateM Parsing

def read8 (b : Buffer) (i : Nat) : Parser Byte := fun p => (b.bytes i,{p with reads := p.reads ++ [i]})

def read16 (b : Buffer) (i : Nat) : Parser Half := fun p => (b.half i,{p with reads := p.reads ++ [i,i + 1]})

def read32 (b : Buffer) (i : Nat) : Parser Word :=
  fun p => (b.word i,{p with reads := p.reads ++ [i,i + 1,i + 2,i + 3]})

def sub {w : Nat} (x y : BitVec w) : Parser (BitVec w) :=
  fun p => (x - y,{p with underflow := p.underflow || decide (x < y)})

def setInfo (f : PacketInfo → PacketInfo) : Parser Unit := fun p => ((),{p with info := f p.info})

/-- The arm of the match for protocol 6. -/
def parseTcp (b : Buffer) (transport : Nat) (transportLen : Word) (ihl : Word) : Parser Int := do
  if transportLen < 20 then return -4
  let srcPort ← read16 b transport
  setInfo fun x => {x with srcPort := blackNtohs srcPort}
  let dstPort ← read16 b (transport + 2)
  setInfo fun x => {x with dstPort := blackNtohs dstPort}
  let offsetFlags ← read16 b (transport + 12)
  setInfo fun x => {x with payloadOffset := 14 + ihl.setWidth 16 + dataOffset offsetFlags}
  let offsetFlags ← read16 b (transport + 12)
  setInfo fun x => {x with flags := (blackNtohs offsetFlags &&& 0x3F#16).setWidth 8}
  setInfo fun x => {x with valid := 1}
  return 0

/-- The arm of the match for protocol 17. -/
def parseUdp (b : Buffer) (transport : Nat) (transportLen : Word) (ihl : Word) : Parser Int := do
  if transportLen < 8 then return -5
  let srcPort ← read16 b transport
  setInfo fun x => {x with srcPort := blackNtohs srcPort}
  let dstPort ← read16 b (transport + 2)
  setInfo fun x => {x with dstPort := blackNtohs dstPort}
  setInfo fun x => {x with payloadOffset := 14 + ihl.setWidth 16 + 8}
  let length ← read16 b (transport + 4)
  let payloadLen ← sub (blackNtohs length) 8
  setInfo fun x => {x with payloadLen := payloadLen}
  setInfo fun x => {x with valid := 1}
  return 0

def parsePacket (b : Buffer) (len : Word) : Parser Int := do
  setInfo fun x => {x with valid := 0}
  if b.isNull ∨ len < 14 then return -1
  let ethertype ← read16 b 12
  setInfo fun x => {x with ethertype := blackNtohs ethertype}
  if blackNtohs ethertype ≠ 0x0800 then return -2
  let ipLen ← sub len 14
  if ipLen < 20 then return -3
  let verIhl ← read8 b 14
  let ihl := headerLength verIhl
  setInfo fun x => {x with ipVersion := 4}
  let protocol ← read8 b (14 + 9)
  setInfo fun x => {x with ipProtocol := protocol}
  let srcIp ← read32 b (14 + 12)
  setInfo fun x => {x with srcIp := blackNtohl srcIp}
  let dstIp ← read32 b (14 + 16)
  setInfo fun x => {x with dstIp := blackNtohl dstIp}
  let ttl ← read8 b (14 + 8)
  setInfo fun x => {x with ttl := ttl}
  let transportLen ← sub ipLen ihl
  let protocol ← read8 b (14 + 9)
  if protocol = 6 then parseTcp b (14 + ihl.toNat) transportLen ihl
  else if protocol = 17 then parseUdp b (14 + ihl.toNat) transportLen ihl
  else do
    setInfo fun x => {x with valid := 1}
    return 0

/-- `black_parse_packet`: its result, and the parser when it is done. -/
def blackParsePacket (b : Buffer) (len : Word) (info : PacketInfo) : Int × Parsing :=
  (parsePacket b len).run ⟨info,[],false⟩

end BlackOS.Net
