import BlackOS.Library.Ata
import BlackOS.Library.Simulation
import Mathlib.Tactic.IntervalCases

/-! `kernel/drivers/ata/ata.c`: how the drives are found, and how sectors are read and written. A port is named by its
channel and its distance from the base of the channel. -/
namespace BlackOS.Ata
open BlackOS.Library.Ata BlackOS.Library.Ata.Channel BlackOS.Library.Simulation

/-- `black_ata_device_t`; the first channel is `false`. -/
structure AtaDevice where
  ioBase : Bool
  slave : Bool
  sectors : BitVec 32
  model : List (BitVec 8)

def blackAta400nsDelay (c : Channel) : Channel :=
  (List.range 4).foldl (fun c _ => (c.inb 0x206).2) c

/-- `while (--black_timeout)` around a look at the status; it is left early when the drive is not busy. -/
def pollLoop : Nat → Channel → Option (BitVec 8) × Channel
  | 0,c => (none,c)
  | timeout+1,c =>
    if timeout = 0 then (none,c)
    else
      let (status,c) := c.inb 7
      if status &&& 0x80 = 0 then (some status,c) else pollLoop timeout c

def blackAtaPoll (c : Channel) : Int × Channel :=
  match pollLoop 100000 (blackAta400nsDelay c) with
  | (none,c) => (-1,c)
  | (some status,c) => if status &&& 0x21 ≠ 0 then (-1,c) else (0,c)

/-- `while (--black_timeout && (black_inb(black_io + 7) & 0x80))`, with the timeout that is left. -/
def busyLoop : Nat → Channel → Nat × Channel
  | 0,c => (0,c)
  | timeout+1,c =>
    if timeout = 0 then (0,c)
    else
      let (status,c) := c.inb 7
      if status &&& 0x80 ≠ 0 then busyLoop timeout c else (timeout,c)

/-- The loop of `black_ata_identify` that waits for data; false where the function returns. -/
def dataLoop : Nat → Channel → Bool × Channel
  | 0,c => (false,c)
  | timeout+1,c =>
    if timeout = 0 then (false,c)
    else
      let (status,c) := c.inb 7
      if status &&& 0x01 ≠ 0 then (false,c)
      else if status &&& 0x08 ≠ 0 then (true,c)
      else dataLoop timeout c

/-- The spaces at the end of a text become zeros; the text comes last byte first. -/
def blankEnd : List (BitVec 8) → List (BitVec 8)
  | [] => []
  | b::bs => if b = 0x20 then 0::blankEnd bs else b::bs

def modelOf (ident : List (BitVec 16)) : List (BitVec 8) :=
  let bytes := (List.range 20).flatMap fun k =>
    [((ident.getD (27 + k) 0) >>> 8).truncate 8,(ident.getD (27 + k) 0 &&& 0xFF).truncate 8]
  (blankEnd bytes.reverse).reverse ++ [0]

def sectorsOf (ident : List (BitVec 16)) : BitVec 32 :=
  ((ident.getD 61 0).zeroExtend 32 <<< 16) ||| (ident.getD 60 0).zeroExtend 32

/-- The part of `black_ata_identify` that talks to the drive. -/
def identifyWords (c : Channel) (slave : Bool) : Option (List (BitVec 16)) × Channel :=
  let c := c.outb 6 (if slave then 0xB0 else 0xA0)
  let c := blackAta400nsDelay c
  let c := c.outb 2 0
  let c := c.outb 3 0
  let c := c.outb 4 0
  let c := c.outb 5 0
  let c := c.outb 7 0xEC
  let (status,c) := c.inb 7
  if status = 0 then (none,c)
  else
    let (timeout,c) := busyLoop 100000 c
    if timeout = 0 then (none,c)
    else
      let (mid,c) := c.inb 4
      let (high,c) := c.inb 5
      if mid ≠ 0 ∨ high ≠ 0 then (none,c)
      else
        let (found,c) := dataLoop timeout c
        if !found then (none,c)
        else
          let ident := inws 256 c
          (some ident.1,ident.2)

structure State where
  channels : Bool → Channel
  devices : List AtaDevice

def blackAtaIdentify (s : State) (io slave : Bool) : State :=
  if s.devices.length ≥ 4 then s
  else
    let (ident,c) := identifyWords (s.channels io) slave
    let channels := Function.update s.channels io c
    match ident with
    | none => {s with channels := channels}
    | some ident => ⟨channels,s.devices ++ [⟨io,slave,sectorsOf ident,modelOf ident⟩]⟩

def blackAtaInit (channels : Bool → Channel) : State :=
  let s : State := ⟨channels,[]⟩
  let s := blackAtaIdentify s false false
  let s := blackAtaIdentify s false true
  let s := blackAtaIdentify s true false
  blackAtaIdentify s true true

/-- The writes to the registers that start a command on sectors. -/
def start (c : Channel) (slave : Bool) (lba : BitVec 32) (count command : BitVec 8) : Channel :=
  let slaveBit : BitVec 32 := if slave then 1 else 0
  let c := c.outb 6 ((0xE0 ||| slaveBit <<< 4 ||| ((lba >>> 24) &&& 0x0F)).truncate 8)
  let c := c.outb 2 count
  let c := c.outb 3 ((lba &&& 0xFF).truncate 8)
  let c := c.outb 4 (((lba >>> 8) &&& 0xFF).truncate 8)
  let c := c.outb 5 (((lba >>> 16) &&& 0xFF).truncate 8)
  c.outb 7 command

def readLoop : Nat → Channel → (Int × List (BitVec 16)) × Channel
  | 0,c => ((0,[]),c)
  | n+1,c =>
    let ready := blackAtaPoll c
    if ready.1 < 0 then ((-1,[]),ready.2)
    else
      let sector := inws 256 ready.2
      let rest := readLoop n sector.2
      ((rest.1.1,sector.1 ++ rest.1.2),rest.2)

/-- The second value holds the words stored in the buffer. -/
def blackAtaReadSectors (c : Channel) (slave : Bool) (lba : BitVec 32) (count : BitVec 8) : (Int × List (BitVec 16)) × Channel :=
  readLoop count.toNat (start c slave lba count 0x20)

def writeLoop : Nat → Channel → List (BitVec 16) → Int × Channel
  | 0,c,_ => (0,(blackAtaPoll (c.outb 7 0xE7)).2)
  | n+1,c,buf =>
    let ready := blackAtaPoll c
    if ready.1 < 0 then (-1,ready.2) else writeLoop n (ready.2.outws (buf.take 256)) (buf.drop 256)

def blackAtaWriteSectors (c : Channel) (slave : Bool) (lba : BitVec 32) (count : BitVec 8) (buf : List (BitVec 16)) :
    Int × Channel :=
  writeLoop count.toNat (start c slave lba count 0x30) buf

def blackAtaGetDevice (s : State) (idx : Int) : Option AtaDevice := if 0 ≤ idx then s.devices[idx.toNat]? else none

/-- Calls with the device that `black_ata_get_device` gives, which is null for an index out of bounds. -/
inductive Call
  | read (idx : Int) (lba : BitVec 32) (count : BitVec 8)
  | write (idx : Int) (lba : BitVec 32) (count : BitVec 8) (buf : List (BitVec 16))

abbrev Reply := Int × List (BitVec 16)

def step (s : State) : Call → Option (State × Reply)
  | .read idx lba count =>
    match blackAtaGetDevice s idx with
    | none => some (s,(-1,[]))
    | some dev =>
      let (reply,c) := blackAtaReadSectors (s.channels dev.ioBase) dev.slave lba count
      some ({s with channels := Function.update s.channels dev.ioBase c},reply)
  | .write idx lba count buf =>
    match blackAtaGetDevice s idx with
    | none => some (s,(-1,[]))
    | some dev =>
      let (result,c) := blackAtaWriteSectors (s.channels dev.ioBase) dev.slave lba count buf
      some ({s with channels := Function.update s.channels dev.ioBase c},(result,[]))

/-- How long a drive may be busy; the driver gives up after a little more. -/
def limit : Nat := 99990

/-- The disk that a call of the driver sees: the sectors from `lba` on, as far as there are any. -/
def fetch (d : Drive) (lba n : Nat) : Reply :=
  (if n ≤ d.capacity - lba then 0 else -1,
    (List.range (min n (d.capacity - lba))).flatMap fun i => words (d.disk (lba + i)))

def store (d : Drive) (lba n : Nat) (buf : List (BitVec 16)) : Drive :=
  {d with disk := fun a =>
    if lba ≤ a ∧ a < lba + min n (d.capacity - lba) then sectorOf ((buf.drop (256 * (a - lba))).take 256) else d.disk a}

theorem fetch_succ (d : Drive) (lba n : Nat) (inside : lba < d.capacity) :
    fetch d lba (n + 1) = ((fetch d (lba + 1) n).1,words (d.disk lba) ++ (fetch d (lba + 1) n).2) := by
  have more : min (n + 1) (d.capacity - lba) = min n (d.capacity - (lba + 1)) + 1 := by omega
  have enough : n + 1 ≤ d.capacity - lba ↔ n ≤ d.capacity - (lba + 1) := by omega
  have later : (List.range (min (n + 1) (d.capacity - lba))).flatMap (fun i => words (d.disk (lba + i))) =
      words (d.disk lba) ++ (List.range (min n (d.capacity - (lba + 1)))).flatMap fun i => words (d.disk (lba + 1 + i)) := by
    rw [more,List.range_succ_eq_map,List.flatMap_cons,List.flatMap_map,Nat.add_zero]
    congr 2
    funext i
    rw [Nat.succ_eq_add_one,Nat.add_comm i 1,Nat.add_assoc]
  unfold fetch
  rw [later]
  simp only [enough]

theorem fetch_past (d : Drive) (lba n : Nat) (outside : d.capacity ≤ lba) : fetch d lba (n + 1) = (-1,[]) := by
  have none_ : d.capacity - lba = 0 := by omega
  simp [fetch,none_]

theorem store_zero (d : Drive) (lba : Nat) (buf : List (BitVec 16)) : store d lba 0 buf = d := by
  have never (a : Nat) : ¬(lba ≤ a ∧ a < lba) := by omega
  simp [store,never]

theorem store_past (d : Drive) (lba n : Nat) (buf : List (BitVec 16)) (outside : d.capacity ≤ lba) : store d lba n buf = d := by
  have none_ : d.capacity - lba = 0 := by omega
  have never (a : Nat) : ¬(lba ≤ a ∧ a < lba) := by omega
  simp [store,none_,never]

theorem store_succ (d : Drive) (lba n : Nat) (buf : List (BitVec 16)) (inside : lba < d.capacity) :
    store d lba (n + 1) buf = store (Drive.put d lba (sectorOf (buf.take 256))) (lba + 1) n (buf.drop 256) := by
  unfold store Drive.put
  congr 1
  funext a
  dsimp only
  by_cases here : a = lba
  · subst here
    rw [if_pos (by omega),if_neg (by omega)]
    simp
  · rw [Function.update_of_ne here]
    by_cases among : lba ≤ a ∧ a < lba + min (n + 1) (d.capacity - lba)
    · have place : 256 + 256 * (a - (lba + 1)) = 256 * (a - lba) := by omega
      rw [if_pos among,if_pos (by omega),List.drop_drop,place]
    · rw [if_neg among,if_neg (by omega)]

section Polls
variable (c : Channel) (d : Drive) (there : c.selected = some d)

theorem flags_ready : c.flags &&& 0x80 = 0 ∧ (c.flags &&& 0x21 ≠ 0 ↔ c.err = true) ∧ (c.flags &&& 0x01 ≠ 0 ↔ c.err = true) ∧
    (c.flags &&& 0x08 ≠ 0 ↔ c.phase ≠ .idle) ∧ c.flags ≠ 0 := by
  unfold flags
  by_cases idle : c.phase = .idle
  · cases c.err
    · simp [idle]
    · simp [idle]
  · cases c.err
    · simp [idle]
    · simp [idle]

include there

theorem status_quiet (quiet : c.busy = 0) : c.inb 7 = (c.flags,c) := by
  simp [inb,status,there,quiet]

theorem status_busy (n : Nat) (busy : c.busy = n + 1) : c.inb 7 = (0x80,{c with busy := n}) := by
  simp [inb,status,there,busy]

theorem look (n : Nat) (busy : c.busy = n) : (c.inb 0x206).2 = {c with busy := n - 1} := by
  cases n with
  | zero =>
    simp [inb,status,there,busy]
    rw [← busy]
  | succ n => simp [inb,status,there,busy]

theorem delay_eq : blackAta400nsDelay c = {c with busy := c.busy - 4} := by
  have first := look c d there c.busy rfl
  have second := look {c with busy := c.busy - 1} d there _ rfl
  have third := look {c with busy := c.busy - 1 - 1} d there _ rfl
  have fourth := look {c with busy := c.busy - 1 - 1 - 1} d there _ rfl
  have sum : c.busy - 1 - 1 - 1 - 1 = c.busy - 4 := by omega
  simp only [blackAta400nsDelay,List.range_succ,List.range_zero,List.nil_append,List.foldl_append,List.foldl_cons,List.foldl_nil]
  rw [first,second,third,fourth,sum]

theorem pollLoop_eq (timeout : Nat) (soon : c.busy + 1 < timeout) :
    pollLoop timeout c = (some c.flags,{c with busy := 0}) := by
  induction timeout generalizing c with
  | zero => omega
  | succ timeout ih =>
    rw [pollLoop,if_neg (by omega)]
    cases busy : c.busy with
    | zero =>
      rw [status_quiet c d there busy]
      dsimp only
      rw [if_pos (flags_ready c).1,← busy]
    | succ n =>
      rw [status_busy c d there n busy]
      dsimp only
      rw [if_neg (by decide)]
      exact ih {c with busy := n} there (by dsimp only; omega)

theorem busyLoop_eq (timeout : Nat) (soon : c.busy + 1 < timeout) :
    busyLoop timeout c = (timeout - 1 - c.busy,{c with busy := 0}) := by
  induction timeout generalizing c with
  | zero => omega
  | succ timeout ih =>
    rw [busyLoop,if_neg (by omega)]
    cases busy : c.busy with
    | zero =>
      rw [status_quiet c d there busy]
      dsimp only
      rw [if_neg (fun busy => busy (flags_ready c).1),Nat.sub_zero,Nat.add_sub_cancel,← busy]
    | succ n =>
      rw [status_busy c d there n busy]
      dsimp only
      rw [if_pos (by decide)]
      have left : timeout + 1 - 1 - (n + 1) = timeout - 1 - n := by omega
      rw [left]
      exact ih {c with busy := n} there (by dsimp only; omega)

theorem poll_eq (soon : c.busy < limit) : blackAtaPoll c = (if c.err then -1 else 0,{c with busy := 0}) := by
  have polled := pollLoop_eq {c with busy := c.busy - 4} d there 100000 (by unfold limit at soon; dsimp only; omega)
  rw [blackAtaPoll,delay_eq c d there,polled]
  have ready := (flags_ready c).2.1
  have same : ({c with busy := c.busy - 4} : Channel).flags = c.flags := rfl
  dsimp only
  rw [same]
  cases err : c.err with
  | false =>
    rw [if_neg (by rw [ready,err]; decide)]
    rfl
  | true =>
    rw [if_pos (by rw [ready,err])]
    rfl

end Polls

section Sectors
variable (d : Drive)

/-- The drive in the middle of a read is where the loop of the driver wants it. -/
theorem readLoop_eq (n lba : Nat) (c : Channel) (there : c.selected = some d) (clear : c.err = false) (quiet : c.busy = 0)
    (prompt : ∀ k, c.delays k < limit) : ∃ c', readLoop n (c.toInput d lba n) = (fetch d lba n,c') ∧ Settled limit c' ∧
      c'.drive = c.drive := by
  induction n generalizing lba c with
  | zero => exact ⟨{c with phase := .idle},by simp [readLoop,toInput,fetch],⟨quiet,rfl,prompt⟩,rfl⟩
  | succ n ih =>
    by_cases inside : lba < d.capacity
    · let taken : Channel := {c.wait with phase := .input (words (d.disk lba)) (lba + 1) n}
      let ready : Channel := {taken with busy := 0}
      have begins : c.toInput d lba (n + 1) = taken := if_pos inside
      have polled : blackAtaPoll taken = (0,ready) := by
        rw [poll_eq taken d there (prompt 0)]
        simp [taken,ready,wait,clear]
      have read := inws_sector ready d there rfl (d.disk lba) (lba + 1) n rfl
      obtain ⟨c',rest,settled,drives⟩ := ih (lba + 1) ready there clear rfl fun k => prompt (k + 1)
      refine ⟨c',?_,settled,drives⟩
      rw [begins,readLoop,polled]
      dsimp only
      rw [if_neg (by decide),read]
      dsimp only
      rw [rest,fetch_succ d lba n inside]
    · have begins : c.toInput d lba (n + 1) = c.fail := if_neg inside
      have polled : blackAtaPoll c.fail = (-1,{c.fail with busy := 0}) := poll_eq c.fail d there (prompt 0)
      refine ⟨{c.fail with busy := 0},?_,⟨rfl,rfl,fun k => prompt (k + 1)⟩,rfl⟩
      rw [begins,readLoop,polled]
      dsimp only
      rw [if_pos (by decide),fetch_past d lba n (by omega)]

/-- The flush, and the wait for what was left to do. -/
theorem flush_settled (c : Channel) (there : c.selected = some d) (idle : c.phase = .idle) (soon : c.busy < limit)
    (prompt : ∀ k, c.delays k < limit) : Settled limit (blackAtaPoll (c.outb 7 0xE7)).2 ∧
      (blackAtaPoll (c.outb 7 0xE7)).2.drive = c.drive := by
  by_cases quiet : c.busy = 0
  · let flushed : Channel := {c with err := false}
    have begins : c.outb 7 0xE7 = flushed.wait := by
      rw [outb,if_pos ⟨quiet,idle⟩,command,there]
      exact if_pos rfl
    rw [begins,poll_eq flushed.wait d there (prompt 0)]
    exact ⟨⟨rfl,idle,fun k => prompt (k + 1)⟩,rfl⟩
  · have ignored : c.outb 7 0xE7 = c := if_neg fun both => quiet both.1
    rw [ignored,poll_eq c d there soon]
    exact ⟨⟨rfl,idle,prompt⟩,rfl⟩

theorem commit_selected (c : Channel) (e : Drive) : (c.commit e).selected = some e := by
  simp [commit,selected,slave]

theorem writeLoop_eq (n lba : Nat) (c : Channel) (buf : List (BitVec 16)) (size : 256 * n ≤ buf.length)
    (there : c.selected = some d) (clear : c.err = false) (quiet : c.busy = 0) (prompt : ∀ k, c.delays k < limit) :
    ∃ c', writeLoop n (c.toOutput d lba n) buf = (if n ≤ d.capacity - lba then 0 else -1,c') ∧ Settled limit c' ∧
      c'.drive = Function.update c.drive c.slave (some (store d lba n buf)) := by
  induction n generalizing d lba c buf with
  | zero =>
    obtain ⟨settled,drives⟩ := flush_settled d {c.wait with phase := .idle} there rfl (prompt 0) fun k => prompt (k + 1)
    have begins : c.toOutput d lba 0 = {c.wait with phase := .idle} := rfl
    refine ⟨_,?_,settled,drives.trans ?_⟩
    · rw [begins,writeLoop,if_pos (Nat.zero_le _)]
    rw [store_zero,← there]
    exact (Function.update_eq_self c.slave c.drive).symm
  | succ n ih =>
    by_cases inside : lba < d.capacity
    · let taken : Channel := {c.wait with phase := .output [] lba n}
      let ready : Channel := {taken with busy := 0}
      let next := Drive.put d lba (sectorOf (buf.take 256))
      have begins : c.toOutput d lba (n + 1) = taken := if_pos inside
      have polled : blackAtaPoll taken = (0,ready) := by
        rw [poll_eq taken d there (prompt 0)]
        simp [taken,ready,wait,clear]
      have whole : (buf.take 256).length = 256 := by
        rw [List.length_take]
        omega
      have written := outws_sector ready d there rfl (buf.take 256) whole lba n rfl
      obtain ⟨c',rest,settled,drives⟩ := ih next (lba + 1) (ready.commit next) (buf.drop 256)
        (by rw [List.length_drop]; omega) (commit_selected ready next) clear rfl fun k => prompt (k + 1)
      have enough : n + 1 ≤ d.capacity - lba ↔ n ≤ next.capacity - (lba + 1) := by
        change n + 1 ≤ d.capacity - lba ↔ n ≤ d.capacity - (lba + 1)
        omega
      refine ⟨c',?_,settled,?_⟩
      · rw [begins,writeLoop,polled]
        dsimp only
        rw [if_neg (by decide),written,rest]
        simp only [enough]
      · rw [drives,store_succ d lba n buf inside]
        change Function.update (Function.update c.drive c.slave _) c.slave _ = _
        rw [Function.update_idem]
    · have begins : c.toOutput d lba (n + 1) = c.fail := if_neg inside
      have polled : blackAtaPoll c.fail = (-1,{c.fail with busy := 0}) := poll_eq c.fail d there (prompt 0)
      refine ⟨{c.fail with busy := 0},?_,⟨rfl,rfl,fun k => prompt (k + 1)⟩,?_⟩
      · rw [begins,writeLoop,polled]
        dsimp only
        rw [if_pos (by decide),if_neg (by omega)]
      · rw [store_past d lba _ buf (by omega),← there]
        exact (Function.update_eq_self c.slave c.drive).symm

end Sectors

/-- The address that reaches the drive has twenty-eight bits. -/
def wrapped (lba : BitVec 32) : Nat := lba.toNat % 2^28

/-- The registers before the command is written. -/
def addressed (c : Channel) (slave : Bool) (lba : BitVec 32) (count : BitVec 8) : Channel :=
  {c with
    select := ((0xE0 ||| (if slave then 1 else 0 : BitVec 32) <<< 4 ||| ((lba >>> 24) &&& 0x0F))).truncate 8
    count := count
    low := (lba &&& 0xFF).truncate 8
    mid := ((lba >>> 8) &&& 0xFF).truncate 8
    high := ((lba >>> 16) &&& 0xFF).truncate 8}

section Start
variable (c : Channel) (settled : Settled limit c) (slave : Bool) (lba : BitVec 32) (count command : BitVec 8)

theorem addressed_slave : (addressed c slave lba count).slave = slave := by
  cases slave
  · simp [addressed,Channel.slave]
  · simp [addressed,Channel.slave]

theorem addressed_lba : (addressed c slave lba count).lba = wrapped lba := by
  have bound := lba.isLt
  have top : ((addressed c slave lba count).select &&& 0x0F).toNat = lba.toNat / 2^24 % 16 := by
    have nibble : (addressed c slave lba count).select &&& 0x0F#8 = ((lba >>> 24) &&& 0x0F).truncate 8 := by
      cases slave
      · ext i inside
        interval_cases i <;> simp [addressed]
      · ext i inside
        interval_cases i <;> simp [addressed]
    refine (congrArg BitVec.toNat nibble).trans ?_
    have mask : ((lba >>> 24) &&& 0x0F).toNat = lba.toNat / 2^24 % 16 := by
      rw [BitVec.toNat_and,BitVec.toNat_ushiftRight,Nat.shiftRight_eq_div_pow]
      exact Nat.and_two_pow_sub_one_eq_mod _ 4
    rw [BitVec.truncate_eq_setWidth,BitVec.toNat_setWidth,mask]
    omega
  have byte (k : Nat) : ((((lba >>> k) &&& 0xFF).truncate 8 : BitVec 8)).toNat = lba.toNat / 2^k % 256 := by
    rw [BitVec.truncate_eq_setWidth,BitVec.toNat_setWidth,BitVec.toNat_and,BitVec.toNat_ushiftRight,Nat.shiftRight_eq_div_pow]
    have mask : lba.toNat / 2^k &&& (0xFF : BitVec 32).toNat = lba.toNat / 2^k % 2^8 := Nat.and_two_pow_sub_one_eq_mod _ 8
    exact (congrArg (· % 256) mask).trans (Nat.mod_mod _ _)
  have high : (addressed c slave lba count).high.toNat = lba.toNat / 2^16 % 256 := byte 16
  have mid : (addressed c slave lba count).mid.toNat = lba.toNat / 2^8 % 256 := byte 8
  have low : (addressed c slave lba count).low.toNat = lba.toNat % 256 := by
    have first := byte 0
    rw [BitVec.ushiftRight_zero,pow_zero,Nat.div_one] at first
    exact first
  unfold Channel.lba wrapped
  rw [top,high,mid,low]
  omega

include settled

theorem start_eq : start c slave lba count command = (addressed c slave lba count).command command := by
  have quiet := settled.quiet
  have idle := settled.idle
  simp [start,outb,quiet,idle,addressed]

end Start

section Identify

theorem delay_absent (c : Channel) (absent : c.selected = none) : blackAta400nsDelay c = c := by
  have quiet : (c.inb 0x206).2 = c := by
    simp [inb,status,absent]
  simp only [blackAta400nsDelay,List.range_succ,List.range_zero,List.nil_append,List.foldl_append,List.foldl_cons,List.foldl_nil,
    quiet]

theorem first_look (c : Channel) (d : Drive) (there : c.selected = some d) :
    ∃ seen, c.inb 7 = (seen,{c with busy := c.busy - 1}) ∧ seen ≠ 0 := by
  cases busy : c.busy with
  | zero =>
    refine ⟨c.flags,?_,(flags_ready c).2.2.2.2⟩
    rw [status_quiet c d there busy,Nat.zero_sub,← busy]
  | succ n => exact ⟨0x80,status_busy c d there n busy,by decide⟩

theorem dataLoop_eq (c : Channel) (d : Drive) (there : c.selected = some d) (quiet : c.busy = 0) (clear : c.err = false)
    (data : c.phase ≠ .idle) (timeout : Nat) (left : 1 < timeout) : dataLoop timeout c = (true,c) := by
  obtain ⟨_,_,err,drq,_⟩ := flags_ready c
  cases timeout with
  | zero => omega
  | succ timeout =>
    rw [dataLoop,if_neg (by omega),status_quiet c d there quiet]
    dsimp only
    rw [if_neg (by rw [err,clear]; decide),if_pos (drq.mpr data)]

variable (c : Channel) (settled : Settled limit c) (slave : Bool)

/-- The registers before the drive is asked who it is. -/
def asked (c : Channel) (slave : Bool) : Channel :=
  {c with select := if slave then 0xB0 else 0xA0,count := 0,low := 0,mid := 0,high := 0}

theorem asked_selected : (asked c slave).selected = c.drive slave := by
  cases slave
  · simp [selected,asked,Channel.slave]
  · simp [selected,asked,Channel.slave]

include settled

theorem delay_quiet : blackAta400nsDelay {c with select := if slave then 0xB0 else 0xA0} =
    {c with select := if slave then 0xB0 else 0xA0} := by
  cases there : ({c with select := if slave then 0xB0 else 0xA0} : Channel).selected with
  | none => exact delay_absent _ there
  | some d =>
    rw [delay_eq _ d there]
    simp [settled.quiet]

theorem asked_eq : ((((((blackAta400nsDelay (c.outb 6 (if slave then 0xB0 else 0xA0))).outb 2 0).outb 3 0).outb 4 0).outb 5 0).outb 7 0xEC) =
    (asked c slave).command 0xEC := by
  have quiet := settled.quiet
  have idle := settled.idle
  have selects : c.outb 6 (if slave then 0xB0 else 0xA0) = {c with select := if slave then 0xB0 else 0xA0} :=
    if_pos ⟨quiet,idle⟩
  rw [selects,delay_quiet c settled slave]
  simp [outb,quiet,idle,asked]

/-- A disk says who it is, and nothing else is taken for one. -/
theorem identifyWords_eq : ∃ c', identifyWords c slave =
      (((c.drive slave).filter fun d => !d.packet).map fun d => words d.ident,c') ∧ Settled limit c' ∧ c'.drive = c.drive := by
  have prompt := settled.prompt
  have selects := asked_selected c slave
  unfold identifyWords
  dsimp only
  rw [asked_eq c settled slave]
  cases there : c.drive slave with
  | none =>
    have absent : (asked c slave).selected = none := selects.trans there
    have kept : (asked c slave).command 0xEC = asked c slave := by
      rw [command,absent]
    have quiet : (asked c slave).inb 7 = (0,asked c slave) := by
      simp [inb,status,absent]
    refine ⟨asked c slave,?_,⟨settled.quiet,settled.idle,prompt⟩,rfl⟩
    rw [kept,quiet]
    rfl
  | some d =>
    have found : (asked c slave).selected = some d := selects.trans there
    let clear : Channel := {asked c slave with err := false}
    cases packet : d.packet with
    | true =>
      let failed : Channel := {clear.fail with mid := 0x14,high := 0xEB}
      have answers : (asked c slave).command 0xEC = failed := by
        simp [command,found,packet,failed,clear]
      obtain ⟨seen,looks,alive⟩ := first_look failed d found
      have soon : failed.busy < limit := prompt 0
      have waited := busyLoop_eq {failed with busy := failed.busy - 1} d found 100000 (by unfold limit at soon; dsimp only; omega)
      refine ⟨{failed with busy := 0},?_,⟨rfl,rfl,fun k => prompt (k + 1)⟩,rfl⟩
      rw [answers,looks]
      dsimp only
      rw [if_neg alive,waited]
      dsimp only
      rw [if_neg (by unfold limit at soon; omega)]
      have mid : ({failed with busy := 0} : Channel).inb 4 = (0x14,{failed with busy := 0}) := rfl
      have high : ({failed with busy := 0} : Channel).inb 5 = (0xEB,{failed with busy := 0}) := rfl
      have signature : (0x14 : BitVec 8) ≠ 0 := by decide
      rw [mid,high,if_pos (.inl signature)]
      simp [packet]
    | false =>
      let taken : Channel := {clear.wait with phase := .input (words d.ident) 0 0}
      let ready : Channel := {taken with busy := 0}
      have answers : (asked c slave).command 0xEC = taken := by
        simp [command,found,packet,taken,clear]
      obtain ⟨seen,looks,alive⟩ := first_look taken d found
      have soon : taken.busy < limit := prompt 0
      have waited := busyLoop_eq {taken with busy := taken.busy - 1} d found 100000 (by unfold limit at soon; dsimp only; omega)
      have data := dataLoop_eq ready d found rfl rfl (by simp [ready,taken]) (100000 - 1 - (taken.busy - 1))
        (by unfold limit at soon; omega)
      have read := inws_sector ready d found rfl d.ident 0 0 rfl
      refine ⟨{ready with phase := .idle},?_,⟨rfl,rfl,fun k => prompt (k + 1)⟩,rfl⟩
      rw [answers,looks]
      dsimp only
      rw [if_neg alive,waited]
      dsimp only
      rw [if_neg (by unfold limit at soon; omega)]
      have mid : ({taken with busy := 0} : Channel).inb 4 = (0,ready) := rfl
      have high : ready.inb 5 = (0,ready) := rfl
      rw [mid,high,if_neg (by simp)]
      dsimp only
      rw [data]
      dsimp only
      rw [read]
      simp [packet,toInput]

end Identify

/-- The disks of the channels in the order in which the driver asks for them. -/
def positions : List (Bool × Bool) := [(false,false),(false,true),(true,false),(true,true)]

def diskAt (channels : Bool → Channel) (p : Bool × Bool) : Option Drive :=
  ((channels p.1).drive p.2).filter fun d => !d.packet

def disks (channels : Bool → Channel) : List Drive := positions.filterMap (diskAt channels)

def AtaDevice.position (dev : AtaDevice) : Bool × Bool := (dev.ioBase,dev.slave)

/-- The entry of the table is about the disk. -/
structure Describes (channels : Bool → Channel) (dev : AtaDevice) (d : Drive) : Prop where
  there : (channels dev.ioBase).drive dev.slave = some d
  disk : d.packet = false
  sectors : dev.sectors = sectorsOf (words d.ident)
  model : dev.model = modelOf (words d.ident)

structure Related (s : State) (drives : List Drive) : Prop where
  settled : ∀ io, Settled limit (s.channels io)
  table : List.Forall₂ (Describes s.channels) s.devices drives
  apart : (s.devices.map AtaDevice.position).Nodup

section Calls
variable (c : Channel) (settled : Settled limit c) (slave : Bool) (d : Drive) (there : c.drive slave = some d)
  (disk : d.packet = false) (lba : BitVec 32) (count : BitVec 8) (some_ : count ≠ 0)
include settled there disk some_

omit settled there disk in
theorem addressed_sectors : ({addressed c slave lba count with err := false} : Channel).sectors = count.toNat :=
  if_neg some_

theorem read_spec : ∃ c', blackAtaReadSectors c slave lba count = (fetch d (wrapped lba) count.toNat,c') ∧
    Settled limit c' ∧ c'.drive = c.drive := by
  let clear : Channel := {addressed c slave lba count with err := false}
  have found : (addressed c slave lba count).selected = some d := by
    rw [selected,addressed_slave]
    exact there
  have place : clear.lba = wrapped lba := addressed_lba c slave lba count
  have begins : start c slave lba count 0x20 = clear.toInput d (wrapped lba) count.toNat := by
    rw [start_eq c settled slave lba count,← place,← addressed_sectors c slave lba count some_]
    simp [command,found,disk,clear]
  obtain ⟨c',read,after,drives⟩ := readLoop_eq d count.toNat (wrapped lba) clear found rfl settled.quiet settled.prompt
  exact ⟨c',by rw [blackAtaReadSectors,begins]; exact read,after,drives⟩

theorem write_spec (buf : List (BitVec 16)) (size : 256 * count.toNat ≤ buf.length) :
    ∃ c', blackAtaWriteSectors c slave lba count buf = (if count.toNat ≤ d.capacity - wrapped lba then 0 else -1,c') ∧
      Settled limit c' ∧ c'.drive = Function.update c.drive slave (some (store d (wrapped lba) count.toNat buf)) := by
  let clear : Channel := {addressed c slave lba count with err := false}
  have bit : clear.slave = slave := addressed_slave c slave lba count
  have found : (addressed c slave lba count).selected = some d := by
    rw [selected,addressed_slave]
    exact there
  have place : clear.lba = wrapped lba := addressed_lba c slave lba count
  have begins : start c slave lba count 0x30 = clear.toOutput d (wrapped lba) count.toNat := by
    rw [start_eq c settled slave lba count,← place,← addressed_sectors c slave lba count some_]
    simp [command,found,disk,clear]
  obtain ⟨c',written,after,drives⟩ :=
    writeLoop_eq d count.toNat (wrapped lba) clear buf size found rfl settled.quiet settled.prompt
  rw [bit] at drives
  exact ⟨c',by rw [blackAtaWriteSectors,begins]; exact written,after,drives⟩

end Calls

/-- A list of disks with the calls' answers. -/
def lookup (drives : List Drive) (idx : Int) : Option Drive := if 0 ≤ idx then drives[idx.toNat]? else none

def spec (drives : List Drive) : Call → List Drive × Reply
  | .read idx lba count =>
    match lookup drives idx with
    | none => (drives,(-1,[]))
    | some d => (drives,fetch d (wrapped lba) count.toNat)
  | .write idx lba count buf =>
    match lookup drives idx with
    | none => (drives,(-1,[]))
    | some d => (drives.set idx.toNat (store d (wrapped lba) count.toNat buf),
        (if count.toNat ≤ d.capacity - wrapped lba then 0 else -1,[]))

/-- A call moves at least one sector, and a write has as many words as it says. -/
def Call.Sound : Call → Prop
  | .read _ _ count => count ≠ 0
  | .write _ _ count buf => count ≠ 0 ∧ 256 * count.toNat ≤ buf.length

theorem lookup_none (s : State) (drives : List Drive) (related : Related s drives) (idx : Int)
    (absent : blackAtaGetDevice s idx = none) : lookup drives idx = none := by
  have lengths := related.table.length_eq
  unfold blackAtaGetDevice at absent
  unfold lookup
  split
  · rename_i positive
    rw [if_pos positive,List.getElem?_eq_none_iff] at absent
    rw [List.getElem?_eq_none_iff]
    omega
  · rfl

theorem lookup_some (s : State) (drives : List Drive) (related : Related s drives) (idx : Int) (dev : AtaDevice)
    (found : blackAtaGetDevice s idx = some dev) : ∃ d, s.devices[idx.toNat]? = some dev ∧ drives[idx.toNat]? = some d ∧
      lookup drives idx = some d ∧ Describes s.channels dev d := by
  have lengths := related.table.length_eq
  unfold blackAtaGetDevice at found
  split at found
  · rename_i positive
    obtain ⟨inside,same⟩ := List.getElem?_eq_some_iff.mp found
    have other : idx.toNat < drives.length := lengths ▸ inside
    have described := (List.forall₂_iff_get.mp related.table).2 idx.toNat inside other
    refine ⟨drives[idx.toNat],found,List.getElem?_eq_getElem other,?_,?_⟩
    · rw [lookup,if_pos positive,List.getElem?_eq_getElem other]
    · rw [← same]
      exact described
  · cases found

/-- What is described depends on the drives only. -/
theorem Describes.congr {first second : Bool → Channel} {dev : AtaDevice} {d : Drive}
    (same : (second dev.ioBase).drive dev.slave = (first dev.ioBase).drive dev.slave) (described : Describes first dev d) :
    Describes second dev d :=
  ⟨same.trans described.there,described.disk,described.sectors,described.model⟩

theorem update_settled (channels : Bool → Channel) (all : ∀ io, Settled limit (channels io)) (io : Bool) (c : Channel)
    (settled : Settled limit c) (other : Bool) : Settled limit (Function.update channels io c other) := by
  by_cases here : other = io
  · subst here
    simpa using settled
  · simpa [here] using all other

theorem update_drives (channels : Bool → Channel) (io : Bool) (c : Channel) (same : c.drive = (channels io).drive) (other : Bool) :
    (Function.update channels io c other).drive = (channels other).drive := by
  by_cases here : other = io
  · subst here
    simpa using same
  · simp [here]

/-- A call of the driver does to the drives what it does to the disks. -/
theorem step_simulates : Simulates (fun _ c => Call.Sound c) Related step spec := by
  intro s drives call related sound
  cases call with
  | read idx lba count =>
    cases found : blackAtaGetDevice s idx with
    | none =>
      have absent := lookup_none s drives related idx found
      exact ⟨s,by simp [step,spec,found,absent],by simpa [spec,absent] using related⟩
    | some dev =>
      obtain ⟨d,_,_,looked,described⟩ := lookup_some s drives related idx dev found
      obtain ⟨c',read,settled,same⟩ := read_spec (s.channels dev.ioBase) (related.settled dev.ioBase) dev.slave d
        described.there described.disk lba count sound
      refine ⟨{s with channels := Function.update s.channels dev.ioBase c'},by simp [step,spec,found,looked,read],?_⟩
      have after : (spec drives (.read idx lba count)).1 = drives := by simp [spec,looked]
      rw [after]
      refine ⟨update_settled s.channels related.settled dev.ioBase c' settled,?_,related.apart⟩
      refine related.table.imp fun other e before => before.congr ?_
      exact congrFun (update_drives s.channels dev.ioBase c' same other.ioBase) other.slave
  | write idx lba count buf =>
    cases found : blackAtaGetDevice s idx with
    | none =>
      have absent := lookup_none s drives related idx found
      exact ⟨s,by simp [step,spec,found,absent],by simpa [spec,absent] using related⟩
    | some dev =>
      obtain ⟨d,placed,listed,looked,described⟩ := lookup_some s drives related idx dev found
      obtain ⟨c',written,settled,same⟩ := write_spec (s.channels dev.ioBase) (related.settled dev.ioBase) dev.slave d
        described.there described.disk lba count sound.1 buf sound.2
      let next := store d (wrapped lba) count.toNat buf
      refine ⟨{s with channels := Function.update s.channels dev.ioBase c'},by simp [step,spec,found,looked,written],?_⟩
      have after : (spec drives (.write idx lba count buf)).1 = drives.set idx.toNat next := by simp [spec,looked,next]
      rw [after]
      refine ⟨update_settled s.channels related.settled dev.ioBase c' settled,?_,related.apart⟩
      obtain ⟨lengths,pointwise⟩ := List.forall₂_iff_get.mp related.table
      refine List.forall₂_iff_get.mpr ⟨by simpa using lengths,fun j inside within => ?_⟩
      have short : j < drives.length := by simpa using within
      have before := pointwise j inside short
      simp only [List.get_eq_getElem] at before ⊢
      obtain ⟨bound,here⟩ := List.getElem?_eq_some_iff.mp placed
      by_cases this : j = idx.toNat
      · subst this
        rw [here,List.getElem_set_self]
        refine ⟨?_,described.disk,described.sectors,described.model⟩
        simp [same,next]
      · rw [List.getElem_set_ne (Ne.symm this)]
        refine before.congr ?_
        have distinct : (⟨j,by simpa using inside⟩ : Fin (s.devices.map AtaDevice.position).length) ≠ ⟨idx.toNat,by simpa using bound⟩ := by
          simpa using this
        have positions := (List.nodup_iff_injective_get.mp related.apart).ne distinct
        simp only [List.get_eq_getElem,List.getElem_map,here,AtaDevice.position,ne_eq,Prod.mk.injEq,not_and] at positions
        by_cases channel : s.devices[j].ioBase = dev.ioBase
        · simp [channel,same,positions channel]
        · simp [channel]

/-- The drives that are asked for are found, in the order in which they are asked for. -/
theorem identify_related (channels : Bool → Channel) (ps : List (Bool × Bool)) (s : State) (drives : List Drive)
    (related : Related s drives) (fresh : (s.devices.map AtaDevice.position ++ ps).Nodup)
    (room : s.devices.length + ps.length ≤ 4) (same : ∀ io, (s.channels io).drive = (channels io).drive) :
    Related (ps.foldl (fun s p => blackAtaIdentify s p.1 p.2) s) (drives ++ ps.filterMap (diskAt channels)) := by
  induction ps generalizing s drives with
  | nil => simpa using related
  | cons p ps ih =>
    obtain ⟨io,slave⟩ := p
    obtain ⟨c',asked,settled,kept⟩ := identifyWords_eq (s.channels io) (related.settled io) slave
    have space : ¬s.devices.length ≥ 4 := by
      rw [List.length_cons] at room
      omega
    let channels' := Function.update s.channels io c'
    have drives' (other : Bool) : (channels' other).drive = (s.channels other).drive :=
      update_drives s.channels io c' kept other
    have table : List.Forall₂ (Describes channels') s.devices drives :=
      related.table.imp fun dev e before => before.congr (congrFun (drives' dev.ioBase) dev.slave)
    have quiet := update_settled s.channels related.settled io c' settled
    have rest : (s.devices.map AtaDevice.position ++ ps).Nodup :=
      fresh.sublist (List.Sublist.append_left (List.sublist_cons_self _ _) _)
    rw [List.foldl_cons]
    cases found : diskAt channels (io,slave) with
    | none =>
      have absent : ((s.channels io).drive slave).filter (fun d => !d.packet) = none := by
        rw [same io]
        exact found
      have next : blackAtaIdentify s io slave = ⟨channels',s.devices⟩ := by
        simp only [blackAtaIdentify,if_neg space,asked,absent,Option.map_none]
        rfl
      rw [next,List.filterMap_cons,found]
      refine ih ⟨channels',s.devices⟩ drives ⟨quiet,table,related.apart⟩ rest ?_ fun other => (drives' other).trans (same other)
      rw [List.length_cons] at room
      exact Nat.le_of_succ_le room
    | some d =>
      have present : ((s.channels io).drive slave).filter (fun d => !d.packet) = some d := by
        rw [same io]
        exact found
      obtain ⟨there,disk⟩ := Option.filter_eq_some_iff.mp present
      let dev : AtaDevice := ⟨io,slave,sectorsOf (words d.ident),modelOf (words d.ident)⟩
      have next : blackAtaIdentify s io slave = ⟨channels',s.devices ++ [dev]⟩ := by
        simp only [blackAtaIdentify,if_neg space,asked,present,Option.map_some]
        rfl
      have described : Describes channels' dev d :=
        ⟨(congrFun (drives' io) slave).trans there,by simpa using disk,rfl,rfl⟩
      have longer : ((s.devices ++ [dev]).map AtaDevice.position ++ ps).Nodup := by
        simpa [dev,AtaDevice.position] using fresh
      rw [next,List.filterMap_cons,found]
      have after := ih ⟨channels',s.devices ++ [dev]⟩ (drives ++ [d])
        ⟨quiet,List.rel_append table (.cons described .nil),longer.of_append_left⟩ longer
        (by simp only [List.length_append,List.length_cons,List.length_nil] at room ⊢; omega)
        fun other => (drives' other).trans (same other)
      rw [List.append_assoc] at after
      exact after

theorem init_related (channels : Bool → Channel) (settled : ∀ io, Settled limit (channels io)) :
    Related (blackAtaInit channels) (disks channels) := by
  have shape : blackAtaInit channels = positions.foldl (fun s p => blackAtaIdentify s p.1 p.2) ⟨channels,[]⟩ := by
    simp only [blackAtaInit,positions,List.foldl_cons,List.foldl_nil]
  have fresh : positions.Nodup := by decide
  have room : positions.length ≤ 4 := by decide
  have found := identify_related channels positions ⟨channels,[]⟩ [] ⟨settled,.nil,List.nodup_nil⟩ fresh room fun _ => rfl
  rw [List.nil_append] at found
  rw [shape]
  exact found

theorem fetch_store (d : Drive) (lba n : Nat) (buf : List (BitVec 16)) (size : buf.length = 256 * n) (fits : lba + n ≤ d.capacity) :
    fetch (store d lba n buf) lba n = (0,buf) := by
  induction n generalizing d lba buf with
  | zero =>
    have nothing : buf = [] := List.length_eq_zero_iff.mp size
    simp [fetch,nothing]
  | succ n ih =>
    let next := Drive.put d lba (sectorOf (buf.take 256))
    have whole : (buf.take 256).length = 256 := by
      rw [List.length_take]
      omega
    have first : (store next (lba + 1) n (buf.drop 256)).disk lba = sectorOf (buf.take 256) := by
      simp [store,next,Drive.put]
    have rest := ih next (lba + 1) (buf.drop 256) (by rw [List.length_drop]; omega) (by change lba + 1 + n ≤ d.capacity; omega)
    rw [store_succ d lba n buf (by omega),fetch_succ _ _ _ (by change lba < d.capacity; omega),rest,first,
      words_sectorOf _ whole,List.take_append_drop]

/-- The driver finds the disks of both channels; every list of reads and writes is answered, errors included, as by arrays of
sectors, however long the drives take for each step within the limit, and what is written is read back. -/
theorem ata_disks (channels : Bool → Channel) (settled : ∀ io, Settled limit (channels io)) (calls : List Call)
    (sound : ∀ c ∈ calls, Call.Sound c) :
    ∃ s, answers step (blackAtaInit channels) calls = some (s,(replies spec (disks channels) calls).2) ∧
      Related s (replies spec (disks channels) calls).1 ∧
      ∀ idx d lba (count : BitVec 8) buf, lookup (replies spec (disks channels) calls).1 idx = some d → count ≠ 0 →
        buf.length = 256 * count.toNat → wrapped lba + count.toNat ≤ d.capacity →
        ∃ s', answers step s [.write idx lba count buf,.read idx lba count] = some (s',[(0,[]),(0,buf)]) := by
  obtain ⟨s,answered,related⟩ := step_simulates.answers calls _ _ (init_related channels settled)
    (along_of_forall Call.Sound step _ calls sound)
  refine ⟨s,answered,related,fun idx d lba count buf looked some_ size fits => ?_⟩
  obtain ⟨s',again,_⟩ := step_simulates.answers [.write idx lba count buf,.read idx lba count] s _ related
    (along_of_forall Call.Sound step _ _
      (List.forall_mem_cons.mpr ⟨⟨some_,size.ge⟩,List.forall_mem_cons.mpr ⟨some_,List.forall_mem_nil _⟩⟩))
  refine ⟨s',again.trans ?_⟩
  generalize (replies spec (disks channels) calls).1 = drives at looked
  have positive : 0 ≤ idx := by
    by_contra negative
    rw [lookup,if_neg negative] at looked
    cases looked
  have listed : drives[idx.toNat]? = some d := by
    rw [lookup,if_pos positive] at looked
    exact looked
  have within : idx.toNat < drives.length := (List.getElem?_eq_some_iff.mp listed).1
  have enough : count.toNat ≤ d.capacity - wrapped lba := by omega
  have first : spec drives (.write idx lba count buf) =
      (drives.set idx.toNat (store d (wrapped lba) count.toNat buf),(0,[])) := by
    simp [spec,looked,enough]
  have later : lookup (drives.set idx.toNat (store d (wrapped lba) count.toNat buf)) idx =
      some (store d (wrapped lba) count.toNat buf) := by
    simp [lookup,positive,within]
  have second : spec (drives.set idx.toNat (store d (wrapped lba) count.toNat buf)) (.read idx lba count) =
      (drives.set idx.toNat (store d (wrapped lba) count.toNat buf),(0,buf)) := by
    simp only [spec,later]
    rw [fetch_store d (wrapped lba) count.toNat buf size fits]
  simp only [replies,first,second]

/-- One disk, the second drive of the second channel, that is busy for three looks at a time. -/
def oneDisk (io : Bool) : Channel where
  drive := fun slave => if io && slave then some ⟨false,fun _ => 0,8,fun lba _ => BitVec.ofNat 16 lba⟩ else none
  count := 0
  low := 0
  mid := 0
  high := 0
  select := 0
  err := false
  phase := .idle
  busy := 0
  delays := fun _ => 3

theorem ata_disks_one : ∃ s, answers step (blackAtaInit oneDisk) [.read 0 7 1,.read 0 8 1,.read 1 0 1] =
    some (s,[(0,words fun _ => 7),(-1,[]),(-1,[])]) := by
  have soon : 3 < limit := by decide
  obtain ⟨s,answered,_⟩ := ata_disks oneDisk (fun _ => ⟨rfl,rfl,fun _ => soon⟩) [.read 0 7 1,.read 0 8 1,.read 1 0 1]
    (by simp [Call.Sound])
  refine ⟨s,answered.trans ?_⟩
  have found : disks oneDisk = [⟨false,fun _ => 0,8,fun lba _ => BitVec.ofNat 16 lba⟩] := rfl
  rw [found]
  simp [replies,spec,lookup,fetch,wrapped]

end BlackOS.Ata
