import BlackOS.Library.ConfigSpace
import BlackOS.Library.Packed
import Mathlib.Data.Nat.Bitwise

/-! `kernel/drivers/pci/pci.c`, and how `driver.c` and `ata_pci.c` beside it look for devices. -/
namespace BlackOS.Pci
open BlackOS.Library.Ram BlackOS.Library.ConfigSpace BlackOS.Library.Packed

def blackPciMaxDevices : Nat := 64

/-- `black_pci_device_t`. -/
structure PciDevice where
  bus : Byte
  slot : Byte
  func : Byte
  vendorId : BitVec 16
  deviceId : BitVec 16
  classCode : Byte
  subclass : Byte
  progIf : Byte
  headerType : Byte
  bar : Nat → Word
  irqLine : Byte

/-- The host bridge and the variables of the file. -/
structure State where
  host : Host
  devices : Nat → PciDevice
  count : Nat

def configAddress (bus slot func off : Byte) : Word :=
  bus.setWidth 32 <<< 16 ||| slot.setWidth 32 <<< 11 ||| func.setWidth 32 <<< 8 ||| (off.setWidth 32 &&& 0xFC) ||| 0x80000000

def blackPciRead (h : Host) (bus slot func off : Byte) : Word × Host :=
  let h := h.outAddress (configAddress bus slot func off)
  (h.inData,h)

/-- The loop over the base address registers. -/
def readBars (h : Host) (bus slot func : Byte) : (Nat → Word) × Host :=
  (List.range 6).foldl (fun r i =>
    let read := blackPciRead r.2 bus slot func (BitVec.ofNat 8 (0x10 + i * 4))
    (Function.update r.1 i read.1,read.2)) (fun _ => 0,h)

/-- The body of `black_pci_scan_device`, with what it does for the other functions of the slot. -/
def scanDevice (others : State → State) (s : State) (bus slot func : Byte) : State :=
  let reg0 := blackPciRead s.host bus slot func 0
  let s := {s with host := reg0.2}
  let vendor := reg0.1.setWidth 16
  if vendor = 0xFFFF then s
  else if s.count ≥ blackPciMaxDevices then s
  else
    let reg2 := blackPciRead s.host bus slot func 0x08
    let reg3 := blackPciRead reg2.2 bus slot func 0x0C
    let reg15 := blackPciRead reg3.2 bus slot func 0x3C
    let bars := readBars reg15.2 bus slot func
    let dev : PciDevice := ⟨bus,slot,func,vendor,(reg0.1 >>> 16).setWidth 16,(reg2.1 >>> 24).setWidth 8,(reg2.1 >>> 16).setWidth 8,
      (reg2.1 >>> 8).setWidth 8,(reg3.1 >>> 16).setWidth 8,bars.1,reg15.1.setWidth 8⟩
    let s : State := ⟨bars.2,Function.update s.devices s.count dev,s.count + 1⟩
    if dev.headerType &&& 0x80 ≠ 0 ∧ func = 0 then others s else s

/-- The recursion is one level deep, as only function 0 looks for others. -/
def blackPciScanDevice (s : State) (bus slot func : Byte) : State :=
  scanDevice (fun s => (List.range 7).foldl (fun s f => scanDevice id s bus slot (BitVec.ofNat 8 (f + 1))) s) s bus slot func

def blackPciInit (s : State) : State :=
  (List.range 256).foldl (fun s bus =>
    (List.range 32).foldl (fun s slot => blackPciScanDevice s (BitVec.ofNat 8 bus) (BitVec.ofNat 8 slot) 0) s)
    {s with count := 0, devices := fun _ => ⟨0,0,0,0,0,0,0,0,0,fun _ => 0,0⟩}

def blackPciGetDevice (s : State) (idx : Nat) : Option PciDevice := if idx < s.count then some (s.devices idx) else none

section Drivers
variable {σ : Type}

/-- The driver's `black_init` is what is done for a device. -/
def blackPciDriverRegister (s : State) (vendor device : BitVec 16) (init : σ → PciDevice → σ) (x : σ) : σ :=
  (List.range s.count).foldl (fun x i =>
    match blackPciGetDevice s i with
    | none => x
    | some dev => if dev.vendorId = vendor ∧ dev.deviceId = device then init x dev else x) x

def ataLoop (s : State) (ataInit : σ → σ) (x : σ) : List Nat → σ
  | [] => x
  | i::is =>
    match blackPciGetDevice s i with
    | none => x
    | some dev => if dev.classCode = 0x01 ∧ dev.subclass = 0x01 then ataInit x else ataLoop s ataInit x is

def blackAtaPciInit (s : State) (ataInit : σ → σ) (x : σ) : σ := ataLoop s ataInit x (List.range s.count)

end Drivers

theorem or_add (a b k : Nat) (low : b < 2^k) : a * 2^k ||| b = a * 2^k + b := by
  rw [← Nat.shiftLeft_eq,Nat.shiftLeft_add_eq_or_of_lt low]

theorem configAddress_eq (bus slot func off : Byte) (s : slot.toNat < 2^5) (f : func.toNat < 2^3) :
    configAddress bus slot func off = addressOf bus.toNat slot.toNat func.toNat (off.toNat / 4) := by
  have b := bus.isLt
  have o := off.isLt
  have masked : ∀ n < 2^8, n &&& 252 = n / 4 * 2^2 := by decide +kernel
  have clear := masked _ o
  apply BitVec.eq_of_toNat_eq
  rw [addressOf_toNat _ _ _ _ b s f (by omega)]
  have value : (configAddress bus slot func off).toNat =
      bus.toNat * 2^16 % 2^32 ||| slot.toNat * 2^11 % 2^32 ||| func.toNat * 2^8 % 2^32 ||| (off.toNat &&& 252) ||| 2147483648 := by
    unfold configAddress
    simp only [BitVec.toNat_or,BitVec.toNat_and,BitVec.toNat_shiftLeft,BitVec.toNat_setWidth,Nat.shiftLeft_eq]
    rw [Nat.mod_eq_of_lt (by omega : bus.toNat < 2^32),Nat.mod_eq_of_lt (by omega : slot.toNat < 2^32),
      Nat.mod_eq_of_lt (by omega : func.toNat < 2^32),Nat.mod_eq_of_lt (by omega : off.toNat < 2^32)]
    rfl
  have top : 2147483648 = 1 * 2^31 := rfl
  have slots : bus.toNat * 2^16 ||| slot.toNat * 2^11 = (bus.toNat * 32 + slot.toNat) * 2^11 := by
    rw [or_add _ _ _ (by omega)]
    omega
  have funcs : (bus.toNat * 32 + slot.toNat) * 2^11 ||| func.toNat * 2^8 = ((bus.toNat * 32 + slot.toNat) * 8 + func.toNat) * 2^8 := by
    rw [or_add _ _ _ (by omega)]
    omega
  rw [value,Nat.mod_eq_of_lt (by omega : bus.toNat * 2^16 < 2^32),Nat.mod_eq_of_lt (by omega : slot.toNat * 2^11 < 2^32),
    Nat.mod_eq_of_lt (by omega : func.toNat * 2^8 < 2^32),slots,funcs,clear,or_add _ _ _ (by omega),Nat.or_comm,top,or_add _ _ _ (by omega)]
  omega

section Registers
variable (h : Host) (bus slot func : Byte) (s : slot.toNat < 2^5) (f : func.toNat < 2^3)
include s f

theorem read_spec (off : Byte) : (blackPciRead h bus slot func off).1 = h.read bus.toNat slot.toNat func.toNat (off.toNat / 4) := by
  have o := off.isLt
  unfold blackPciRead
  rw [configAddress_eq bus slot func off s f]
  exact inData_named h _ _ _ _ bus.isLt s f (by omega)

theorem readBars_spec : (readBars h bus slot func).2.functions = h.functions ∧
    (readBars h bus slot func).1 = fun i => if i < 6 then h.read bus.toNat slot.toNat func.toNat (4 + i) else 0 := by
  suffices most : ∀ n ≤ 6, ∃ r : (Nat → Word) × Host, (List.range n).foldl (fun r i =>
      let read := blackPciRead r.2 bus slot func (BitVec.ofNat 8 (0x10 + i * 4))
      (Function.update r.1 i read.1,read.2)) (fun _ => 0,h) = r ∧ r.2.functions = h.functions ∧
      r.1 = fun i => if i < n then h.read bus.toNat slot.toNat func.toNat (4 + i) else 0 by
    obtain ⟨r,folded,same,regs⟩ := most 6 le_rfl
    rw [readBars,folded]
    exact ⟨same,regs⟩
  intro n
  induction n with
  | zero => exact fun _ => ⟨_,rfl,rfl,by simp⟩
  | succ n ih =>
    intro low
    obtain ⟨r,folded,same,regs⟩ := ih (by omega)
    refine ⟨_,rfl,?_⟩
    rw [List.range_succ,List.foldl_concat,folded]
    have offset : (BitVec.ofNat 8 (0x10 + n * 4)).toNat / 4 = 4 + n := by
      rw [BitVec.toNat_ofNat]
      omega
    refine ⟨same,?_⟩
    funext i
    simp only [read_spec r.2 bus slot func s f,offset,read_congr _ _ same,regs]
    by_cases here : i = n
    · simp [here]
    · have before : i < n + 1 ↔ i < n := by omega
      simp [here,before]

end Registers

/-- What the registers of a function say about it. -/
def deviceAt (h : Host) (bus slot func : Nat) : PciDevice where
  bus := BitVec.ofNat 8 bus
  slot := BitVec.ofNat 8 slot
  func := BitVec.ofNat 8 func
  vendorId := (h.read bus slot func 0).setWidth 16
  deviceId := (h.read bus slot func 0 >>> 16).setWidth 16
  classCode := (h.read bus slot func 2 >>> 24).setWidth 8
  subclass := (h.read bus slot func 2 >>> 16).setWidth 8
  progIf := (h.read bus slot func 2 >>> 8).setWidth 8
  headerType := (h.read bus slot func 3 >>> 16).setWidth 8
  bar := fun i => if i < 6 then h.read bus slot func (4 + i) else 0
  irqLine := (h.read bus slot func 15).setWidth 8

def Present (h : Host) (bus slot func : Nat) : Prop := (deviceAt h bus slot func).vendorId ≠ 0xFFFF

instance (h : Host) (bus slot func : Nat) : Decidable (Present h bus slot func) := inferInstanceAs (Decidable (_ ≠ _))

def Multi (h : Host) (bus slot : Nat) : Prop := (deviceAt h bus slot 0).headerType &&& 0x80 ≠ 0

instance (h : Host) (bus slot : Nat) : Decidable (Multi h bus slot) := inferInstanceAs (Decidable (_ ≠ _))

def funcDevices (h : Host) (bus slot func : Nat) : List PciDevice := if Present h bus slot func then [deviceAt h bus slot func] else []

/-- The functions that are looked for in a slot: none where there is no function 0, and others than it only where it says so. -/
def slotDevices (h : Host) (bus slot : Nat) : List PciDevice :=
  if Present h bus slot 0 then
    deviceAt h bus slot 0::if Multi h bus slot then (List.range 7).flatMap fun f => funcDevices h bus slot (f + 1) else []
  else []

def found (h : Host) : List PciDevice := (List.range 256).flatMap fun bus => (List.range 32).flatMap (slotDevices h bus)

/-- The table holds the first devices of a list. -/
structure Listed (h : Host) (l : List PciDevice) (s : State) : Prop where
  host : s.host.functions = h.functions
  devices : contents s.devices s.count = l.take 64

theorem Listed.count {h : Host} {l : List PciDevice} {s : State} (listed : Listed h l s) : s.count = min 64 l.length := by
  rw [← List.length_take,← listed.devices,contents_length]

theorem Listed.full {h : Host} {l : List PciDevice} {s : State} (listed : Listed h l s) (full : 64 ≤ l.length) (more : List PciDevice) :
    Listed h (l ++ more) s :=
  ⟨listed.host,listed.devices.trans (List.take_append_of_le_length full).symm⟩

theorem Listed.add {h : Host} {l : List PciDevice} {s : State} (listed : Listed h l s) (room : l.length < 64) (dev : PciDevice) (host : Host)
    (same : host.functions = h.functions) : Listed h (l ++ [dev]) ⟨host,Function.update s.devices s.count dev,s.count + 1⟩ := by
  refine ⟨same,(contents_append s.devices s.count dev).trans ?_⟩
  have short : (l ++ [dev]).length ≤ 64 := by
    rw [List.length_append,List.length_singleton]
    exact room
  rw [listed.devices,List.take_of_length_le room.le,List.take_of_length_le short]

section Scan
variable (h : Host)

theorem scanDevice_listed (others : State → State) (bus slot func : Nat) (b : bus < 2^8) (c : slot < 2^5) (f : func < 2^3)
    (more l : List PciDevice) (kept : ∀ s, Listed h (l ++ [deviceAt h bus slot func]) s →
      Listed h (l ++ deviceAt h bus slot func::more) (others s)) (s : State) (listed : Listed h l s) :
    Listed h (l ++ if Present h bus slot func then
        deviceAt h bus slot func::if Multi h bus slot ∧ func = 0 then more else [] else [])
      (scanDevice others s (BitVec.ofNat 8 bus) (BitVec.ofNat 8 slot) (BitVec.ofNat 8 func)) := by
  have busNat : (BitVec.ofNat 8 bus).toNat = bus := by simp; omega
  have slotNat : (BitVec.ofNat 8 slot).toNat = slot := by simp; omega
  have funcNat : (BitVec.ofNat 8 func).toNat = func := by simp; omega
  have inSlot : (BitVec.ofNat 8 slot).toNat < 2^5 := by rwa [slotNat]
  have inFunc : (BitVec.ofNat 8 func).toNat < 2^3 := by rwa [funcNat]
  have zero : BitVec.ofNat 8 func = 0 ↔ func = 0 := by
    rw [← BitVec.toNat_inj,funcNat]
    rfl
  have read (g : Host) (same : g.functions = h.functions) (off : Byte) : ∃ g', g'.functions = h.functions ∧
      blackPciRead g (BitVec.ofNat 8 bus) (BitVec.ofNat 8 slot) (BitVec.ofNat 8 func) off = (h.read bus slot func (off.toNat / 4),g') := by
    have value := read_spec g (BitVec.ofNat 8 bus) _ _ inSlot inFunc off
    rw [busNat,slotNat,funcNat,read_congr g h same] at value
    exact ⟨(blackPciRead g _ _ _ off).2,same,Prod.ext value rfl⟩
  obtain ⟨g0,same0,reg0⟩ := read s.host listed.host 0
  obtain ⟨g2,same2,reg2⟩ := read g0 same0 0x08
  obtain ⟨g3,same3,reg3⟩ := read g2 same2 0x0C
  obtain ⟨g15,same15,reg15⟩ := read g3 same3 0x3C
  obtain ⟨sameBars,bars⟩ := readBars_spec g15 _ _ _ inSlot inFunc
  rw [busNat,slotNat,funcNat,read_congr g15 h same15] at bars
  rw [same15] at sameBars
  unfold scanDevice
  simp only [reg0,reg2,reg3,reg15,bars,zero]
  by_cases present : Present h bus slot func
  · have vendor : (h.read bus slot func ((0 : Byte).toNat / 4)).setWidth 16 ≠ 0xFFFF := present
    rw [if_neg vendor,if_pos present]
    have most : blackPciMaxDevices = 64 := rfl
    have count := listed.count
    by_cases full : 64 ≤ l.length
    · have enough : s.count ≥ blackPciMaxDevices := by omega
      rw [if_pos enough]
      have read : Listed h l {s with host := g0} := ⟨same0,listed.devices⟩
      exact read.full full _
    · have fewer : ¬s.count ≥ blackPciMaxDevices := by omega
      rw [if_neg fewer]
      have added := listed.add (by omega) (deviceAt h bus slot func) _ sameBars
      by_cases multi : Multi h bus slot ∧ func = 0
      · have flag : (h.read bus slot func ((0x0C : Byte).toNat / 4) >>> 16).setWidth 8 &&& 0x80 ≠ 0 := by
          rw [multi.2]
          exact multi.1
        rw [if_pos multi,if_pos ⟨flag,multi.2⟩]
        exact kept _ added
      · rw [if_neg multi,if_neg ?_]
        · exact added
        · rintro ⟨flag,first⟩
          rw [first] at flag
          exact multi ⟨flag,first⟩
  · have vendor : (h.read bus slot func ((0 : Byte).toNat / 4)).setWidth 16 = 0xFFFF := not_not.mp present
    rw [if_pos vendor,if_neg present,List.append_nil]
    exact ⟨same0,listed.devices⟩

theorem foldl_listed {ι : Type} (xs : List ι) (step : State → ι → State) (new : ι → List PciDevice)
    (each : ∀ x ∈ xs, ∀ l s, Listed h l s → Listed h (l ++ new x) (step s x)) (l : List PciDevice) (s : State) (listed : Listed h l s) :
    Listed h (l ++ xs.flatMap new) (xs.foldl step s) := by
  induction xs generalizing l s with
  | nil => rwa [List.flatMap_nil,List.append_nil]
  | cons x xs ih =>
    rw [List.foldl_cons,List.flatMap_cons,← List.append_assoc]
    exact ih (fun y later => each y (List.mem_cons_of_mem x later)) _ _ (each x List.mem_cons_self l s listed)

theorem others_listed (bus slot : Nat) (b : bus < 2^8) (c : slot < 2^5) (l : List PciDevice) (s : State) (listed : Listed h l s) :
    Listed h (l ++ (List.range 7).flatMap fun f => funcDevices h bus slot (f + 1))
      ((List.range 7).foldl (fun s f => scanDevice id s (BitVec.ofNat 8 bus) (BitVec.ofNat 8 slot) (BitVec.ofNat 8 (f + 1))) s) := by
  refine foldl_listed h _ _ _ (fun f among l s listed => ?_) l s listed
  have low := List.mem_range.mp among
  have scanned := scanDevice_listed h id bus slot (f + 1) b c (by omega) [] l (fun _ listed => listed) s listed
  simpa [funcDevices] using scanned

theorem slot_listed (bus slot : Nat) (b : bus < 2^8) (c : slot < 2^5) (l : List PciDevice) (s : State) (listed : Listed h l s) :
    Listed h (l ++ slotDevices h bus slot) (blackPciScanDevice s (BitVec.ofNat 8 bus) (BitVec.ofNat 8 slot) 0) := by
  have scanned := scanDevice_listed h
    (fun s => (List.range 7).foldl (fun s f => scanDevice id s (BitVec.ofNat 8 bus) (BitVec.ofNat 8 slot) (BitVec.ofNat 8 (f + 1))) s)
    bus slot 0 b c (by omega) ((List.range 7).flatMap fun f => funcDevices h bus slot (f + 1)) l
    (fun s listed => by simpa using others_listed h bus slot b c _ s listed) s listed
  simpa [slotDevices,blackPciScanDevice] using scanned

theorem init_listed (s : State) : Listed s.host (found s.host) (blackPciInit s) := by
  have begins : Listed s.host [] {s with count := 0, devices := fun _ => ⟨0,0,0,0,0,0,0,0,0,fun _ => 0,0⟩} := ⟨rfl,rfl⟩
  have buses := foldl_listed s.host (List.range 256) (fun t bus =>
    (List.range 32).foldl (fun t slot => blackPciScanDevice t (BitVec.ofNat 8 bus) (BitVec.ofNat 8 slot) 0) t)
    (fun bus => (List.range 32).flatMap (slotDevices s.host bus)) (fun bus b l t listed =>
      foldl_listed s.host _ _ _ (fun slot c l t listed =>
        slot_listed s.host bus slot (List.mem_range.mp b) (List.mem_range.mp c) l t listed) l t listed) [] _ begins
  rwa [List.nil_append] at buses

end Scan

theorem mem_funcDevices (h : Host) (bus slot func : Nat) (d : PciDevice) :
    d ∈ funcDevices h bus slot func ↔ Present h bus slot func ∧ d = deviceAt h bus slot func := by
  unfold funcDevices
  by_cases present : Present h bus slot func
  · simp [present]
  · simp [present]

theorem mem_slot (h : Host) (bus slot : Nat) (d : PciDevice) : d ∈ slotDevices h bus slot ↔ ∃ func < 8, Present h bus slot func ∧
    (func = 0 ∨ Present h bus slot 0 ∧ Multi h bus slot) ∧ d = deviceAt h bus slot func := by
  unfold slotDevices
  constructor
  · intro listed
    by_cases present : Present h bus slot 0
    · rw [if_pos present] at listed
      rcases List.mem_cons.mp listed with first | other
      · exact ⟨0,by omega,present,Or.inl rfl,first⟩
      · by_cases multi : Multi h bus slot
        · rw [if_pos multi] at other
          obtain ⟨f,among,one⟩ := List.mem_flatMap.mp other
          obtain ⟨there,same⟩ := (mem_funcDevices h bus slot (f + 1) d).mp one
          have low := List.mem_range.mp among
          exact ⟨f + 1,by omega,there,Or.inr ⟨present,multi⟩,same⟩
        · rw [if_neg multi] at other
          cases other
    · rw [if_neg present] at listed
      cases listed
  · rintro ⟨func,low,there,reached,rfl⟩
    cases func with
    | zero =>
      rw [if_pos there]
      exact List.mem_cons_self
    | succ f =>
      obtain ⟨present,multi⟩ := reached.resolve_left (Nat.succ_ne_zero f)
      rw [if_pos present,if_pos multi]
      apply List.mem_cons_of_mem
      exact List.mem_flatMap.mpr ⟨f,List.mem_range.mpr (by omega),(mem_funcDevices h bus slot (f + 1) _).mpr ⟨there,rfl⟩⟩

/-- A function is found just if it is there, and is the first of its slot or stands in a slot of several functions. -/
theorem mem_found (h : Host) (d : PciDevice) : d ∈ found h ↔ ∃ bus < 256, ∃ slot < 32, ∃ func < 8, Present h bus slot func ∧
    (func = 0 ∨ Present h bus slot 0 ∧ Multi h bus slot) ∧ d = deviceAt h bus slot func := by
  simp only [found,List.mem_flatMap,List.mem_range,mem_slot]

def location (d : PciDevice) : Nat := (d.bus.toNat * 2^5 + d.slot.toNat) * 2^3 + d.func.toNat

section Order
variable (h : Host) (bus slot : Nat) (b : bus < 2^8) (c : slot < 2^5)
include b c

theorem deviceAt_location (func : Nat) (f : func < 2^3) : location (deviceAt h bus slot func) = (bus * 2^5 + slot) * 2^3 + func := by
  simp only [location,deviceAt,BitVec.toNat_ofNat]
  omega

theorem slot_location (d : PciDevice) (listed : d ∈ slotDevices h bus slot) :
    ∃ func < 2^3, location d = (bus * 2^5 + slot) * 2^3 + func := by
  obtain ⟨func,low,_,_,rfl⟩ := (mem_slot h bus slot d).mp listed
  exact ⟨func,low,deviceAt_location h bus slot b c func low⟩

theorem slot_sorted : (slotDevices h bus slot).Pairwise fun d e => location d < location e := by
  have later (f : Nat) (among : f ∈ List.range 7) (d : PciDevice) (one : d ∈ funcDevices h bus slot (f + 1)) :
      location d = (bus * 2^5 + slot) * 2^3 + (f + 1) := by
    have low := List.mem_range.mp among
    rw [((mem_funcDevices h bus slot (f + 1) d).mp one).2]
    exact deviceAt_location h bus slot b c (f + 1) (by omega)
  have others : ((List.range 7).flatMap fun f => funcDevices h bus slot (f + 1)).Pairwise fun d e => location d < location e := by
    refine List.pairwise_flatMap.mpr ⟨fun f _ => ?_,List.pairwise_lt_range.imp_of_mem fun left right less d before e after => ?_⟩
    · unfold funcDevices
      split
      · exact List.pairwise_singleton _ _
      · exact List.Pairwise.nil
    · rw [later _ left d before,later _ right e after]
      omega
  unfold slotDevices
  split
  · refine List.pairwise_cons.mpr ⟨fun d other => ?_,?_⟩
    · split at other
      · obtain ⟨f,among,one⟩ := List.mem_flatMap.mp other
        rw [deviceAt_location h bus slot b c 0 (by omega),later f among d one]
        omega
      · cases other
    · split
      · exact others
      · exact List.Pairwise.nil
  · exact List.Pairwise.nil

end Order

/-- The functions are found in the order of their addresses. -/
theorem found_sorted (h : Host) : (found h).Pairwise fun d e => location d < location e := by
  have inBus (bus : Nat) (b : bus < 2^8) : ((List.range 32).flatMap (slotDevices h bus)).Pairwise fun d e => location d < location e := by
    refine List.pairwise_flatMap.mpr ⟨fun slot c => slot_sorted h bus slot b (List.mem_range.mp c),
      List.pairwise_lt_range.imp_of_mem fun left right less d before e after => ?_⟩
    obtain ⟨f,low,first⟩ := slot_location h bus _ b (List.mem_range.mp left) d before
    obtain ⟨g,_,second⟩ := slot_location h bus _ b (List.mem_range.mp right) e after
    omega
  refine List.pairwise_flatMap.mpr ⟨fun bus b => inBus bus (List.mem_range.mp b),
    List.pairwise_lt_range.imp_of_mem fun left right less d before e after => ?_⟩
  obtain ⟨slot,c,among⟩ := List.mem_flatMap.mp before
  obtain ⟨slot',c',among'⟩ := List.mem_flatMap.mp after
  obtain ⟨f,low,first⟩ := slot_location h _ slot (List.mem_range.mp left) (List.mem_range.mp c) d among
  obtain ⟨g,low',second⟩ := slot_location h _ slot' (List.mem_range.mp right) (List.mem_range.mp c') e among'
  have within := List.mem_range.mp c
  omega

section Drivers
variable {σ : Type} (h : Host) (l : List PciDevice) (s : State) (listed : Listed h l s)
include listed

theorem getDevice_listed (i : Nat) : blackPciGetDevice s i = (l.take 64)[i]? := by
  unfold blackPciGetDevice
  rw [← listed.devices]
  by_cases inside : i < s.count
  · have within : i < (contents s.devices s.count).length := by rwa [contents_length]
    rw [if_pos inside,List.getElem?_eq_getElem within,contents_getElem]
  · have behind : (contents s.devices s.count).length ≤ i := by rwa [contents_length,← Nat.not_lt]
    rw [if_neg inside,List.getElem?_eq_none behind]

theorem register_listed (vendor device : BitVec 16) (init : σ → PciDevice → σ) (x : σ) :
    blackPciDriverRegister s vendor device init x =
      ((l.take 64).filter fun d => d.vendorId = vendor ∧ d.deviceId = device).foldl init x := by
  rw [List.foldl_filter,← listed.devices,contents,List.foldl_map]
  refine List.foldl_ext _ _ _ fun x i among => ?_
  have there : blackPciGetDevice s i = some (s.devices i) := if_pos (List.mem_range.mp among)
  simp [there]

omit listed in
theorem ataLoop_eq (ataInit : σ → σ) (x : σ) (is : List Nat) (inside : ∀ i ∈ is, i < s.count) :
    ataLoop s ataInit x is = if ∃ d ∈ is.map s.devices, d.classCode = 0x01 ∧ d.subclass = 0x01 then ataInit x else x := by
  induction is with
  | nil => simp [ataLoop]
  | cons i is ih =>
    have there : blackPciGetDevice s i = some (s.devices i) := if_pos (inside i List.mem_cons_self)
    rw [ataLoop,there]
    by_cases here : (s.devices i).classCode = 0x01 ∧ (s.devices i).subclass = 0x01
    · rw [if_pos ⟨s.devices i,List.mem_cons_self,here⟩]
      exact if_pos here
    · refine (if_neg here).trans ((ih fun j later => inside j (List.mem_cons_of_mem i later)).trans (if_congr ?_ rfl rfl))
      simp only [List.map_cons,List.mem_cons,exists_eq_or_imp,here,false_or]

theorem ataInit_listed (ataInit : σ → σ) (x : σ) : blackAtaPciInit s ataInit x =
    if ∃ d ∈ l.take 64, d.classCode = 0x01 ∧ d.subclass = 0x01 then ataInit x else x := by
  rw [blackAtaPciInit,ataLoop_eq s ataInit x _ fun i among => List.mem_range.mp among,← listed.devices]
  rfl

end Drivers

/-- After the scan the table holds the first sixty-four functions of the bus, in the order of their addresses, that are the
first of their slot or stand in a slot of several, with what their registers say; the drivers are called for those of them
that match. No register has changed. -/
theorem pci_enumerates (s : State) :
    let t := blackPciInit s
    let devices := (found s.host).take 64
    t.host.functions = s.host.functions ∧ (∀ i, blackPciGetDevice t i = devices[i]?) ∧
      (∀ d, d ∈ found s.host ↔ ∃ bus < 256, ∃ slot < 32, ∃ func < 8, Present s.host bus slot func ∧
        (func = 0 ∨ Present s.host bus slot 0 ∧ Multi s.host bus slot) ∧ d = deviceAt s.host bus slot func) ∧
      (found s.host).Pairwise (fun d e => location d < location e) ∧
      (∀ (σ : Type) (vendor device : BitVec 16) (init : σ → PciDevice → σ) (x : σ), blackPciDriverRegister t vendor device init x =
        (devices.filter fun d => d.vendorId = vendor ∧ d.deviceId = device).foldl init x) ∧
      ∀ (σ : Type) (ataInit : σ → σ) (x : σ), blackAtaPciInit t ataInit x =
        if ∃ d ∈ devices, d.classCode = 0x01 ∧ d.subclass = 0x01 then ataInit x else x := by
  intro t devices
  have listed : Listed s.host (found s.host) t := init_listed s
  clear_value t
  exact ⟨listed.host,getDevice_listed s.host _ t listed,mem_found s.host,found_sorted s.host,
    fun σ vendor device => register_listed s.host _ t listed vendor device,fun σ => ataInit_listed s.host _ t listed⟩

end BlackOS.Pci
