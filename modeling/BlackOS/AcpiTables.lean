import BlackOS.AcpiMadt
import BlackOS.Pmm

/-! `black_acpi_init` and `black_acpi_find_table` of `kernel/acpi/acpi.c`, and where they and the walk over the
MADT read. -/
namespace BlackOS.Acpi
open BlackOS.Library.Ram BlackOS.Library.Trace BlackOS.Library.Cursor
open BlackOS.Pmm (kernelVma)

/-- `sizeof(black_acpi_header_t)`. -/
def headerSize : Word := 36

def rsdpSignature : List Byte := [0x52,0x53,0x44,0x20,0x50,0x54,0x52,0x20]

def madtSignature : List Byte := [0x41,0x50,0x49,0x43]

section Find
variable (mem : Memory)

/-- So many bytes at an address. -/
def bytesAt (p : Word) (n : Nat) : List Byte := (List.range n).map fun i => mem (p + word i)

/-- Both loops of `black_acpi_find_rsdp`, from address `a` on in steps of 16. -/
def scanRsdp : Nat → Word → Option Word
  | 0,_ => none
  | left+1,a =>
    let p := a + kernelVma
    if bytesAt mem p 8 = rsdpSignature ∧ blackAcpiChecksum mem p 20 = true then some p
    else scanRsdp left (a + 16)

/-- The address behind the segment at 0x40E, which is a half word. -/
def ebdaAddr : Word :=
  word ((mem (0x40E + kernelVma)).toNat + 256 * (mem (0x40F + kernelVma)).toNat) <<< 4

def blackAcpiFindRsdp : Option Word :=
  (if ebdaAddr mem ≠ 0 then scanRsdp mem 64 (ebdaAddr mem) else none) <|> scanRsdp mem 8192 0xE0000

/-- The subtraction is unsigned. -/
def entryCount (table : Word) : Nat := ((tableLength mem table - headerSize) / 4).toNat

def entryAddress (rsdt : Word) (i : Nat) : Word := rsdt + headerSize + word (4 * i)

def readEntryWord (rsdt : Word) (i : Nat) : Traced Access Word :=
  logged (.word (entryAddress rsdt i)) (some (read32 mem (entryAddress rsdt i)))

end Find

/-! The state outside the variables of the file shows the kernel a memory, and `black_acpi_ensure_mapped` makes
some other state of it. -/
section Tables
variable {σ : Type} (view : σ → Memory) (ensureMapped : σ → Word → Word → σ)

/-- `black_acpi_init` up to the loop: the RSDT, or the result of the call. -/
def openRsdt (m : σ) (s : State) : σ × State × Except Int Word :=
  match blackAcpiFindRsdp (view m) with
  | none => (m,{s with rsdp := none},.error (-1))
  | some rsdp =>
    let s := {s with rsdp := some rsdp}
    let phys := read32 (view m) (rsdp + 16)
    if phys ≥ 0x40000000 then (m,s,.error (-2))
    else
      let m := ensureMapped m phys 0x1000
      let rsdt := phys + kernelVma
      let s := {s with rsdt := some rsdt}
      if blackAcpiChecksum (view m) rsdt (tableLength (view m) rsdt) = false then (m,s,.error (-3))
      else (ensureMapped m phys (tableLength (view m) rsdt),s,.ok rsdt)

/-- The body of the loop. -/
def initEntry (fuel : Nat) (rsdt : Word) (i : Nat) (m : σ) (s : State) : Traced Access (σ × State) := do
  let tphys ← readEntryWord (view m) rsdt i
  if tphys ≥ 0x40000000 then return (m,s)
  else
    let m := ensureMapped m tphys headerSize
    let h := tphys + kernelVma
    if bytesAt (view m) h 4 = madtSignature then
      let m := ensureMapped m tphys (tableLength (view m) h)
      if blackAcpiChecksum (view m) h (tableLength (view m) h) = true then
        let s ← blackAcpiParseMadt (view m) fuel s h
        return (m,s)
      else return (m,s)
    else return (m,s)

/-- The turns that are left, from `i` on. -/
def initLoop (fuel : Nat) (rsdt : Word) : Nat → Nat → σ → State → Traced Access (σ × State)
  | 0,_,m,s => pure (m,s)
  | left+1,i,m,s => do
    let (m,s) ← initEntry view ensureMapped fuel rsdt i m s
    initLoop fuel rsdt left (i + 1) m s

def blackAcpiInit (fuel : Nat) (m : σ) (s : State) : Traced Access (σ × State × Int) :=
  match openRsdt view ensureMapped m s with
  | (m,s,.error code) => pure (m,s,code)
  | (m,s,.ok rsdt) => do
    let (m,s) ← initLoop view ensureMapped fuel rsdt (entryCount (view m) rsdt) 0 m s
    return (m,s,0)

def findLoop (sig : List Byte) (rsdt : Word) : Nat → Nat → σ → Traced Access (σ × Option Word)
  | 0,_,m => pure (m,none)
  | left+1,i,m => do
    let tphys ← readEntryWord (view m) rsdt i
    if tphys ≥ 0x40000000 then findLoop sig rsdt left (i + 1) m
    else
      let m := ensureMapped m tphys headerSize
      let h := tphys + kernelVma
      if bytesAt (view m) h 4 = sig.take 4 ∧ blackAcpiChecksum (view m) h (tableLength (view m) h) = true then
        return (m,some h)
      else findLoop sig rsdt left (i + 1) m

def blackAcpiFindTable (m : σ) (s : State) (sig : List Byte) : Traced Access (σ × Option Word) :=
  match s.rsdt with
  | none => pure (m,none)
  | some rsdt => findLoop view ensureMapped sig rsdt (entryCount (view m) rsdt) 0 m

/-- An entry word of the RSDT is read behind its header and within its length. -/
def WordInside (rsdt len : Word) : Access → Prop
  | .word a => 36 ≤ (a - rsdt).toNat ∧ (a - rsdt).toNat + 4 ≤ len.toNat
  | _ => True

theorem entryCount_eq (mem : Memory) (table : Word) :
    entryCount mem table = (2^32 - 36 + (tableLength mem table).toNat) % 2^32 / 4 := by
  rw [entryCount,BitVec.toNat_udiv,BitVec.toNat_sub]
  rfl

theorem entryAddress_offset (rsdt : Word) (i : Nat) (low : 36 + 4 * i < 2^32) :
    (entryAddress rsdt i - rsdt).toNat = 36 + 4 * i := by
  have header : headerSize = word 36 := rfl
  have offset : entryAddress rsdt i - rsdt = word (36 + 4 * i) := by
    rw [entryAddress,header,BitVec.add_assoc,word_add,BitVec.add_comm,BitVec.add_sub_cancel]
  rw [offset,word_toNat _ low]

theorem entry_inside (rsdt len : Word) (i : Nat) (long : 36 + 4 * i + 4 ≤ len.toNat) :
    WordInside rsdt len (.word (entryAddress rsdt i)) := by
  have low := len.isLt
  rw [WordInside,entryAddress_offset rsdt i (by omega)]
  omega

/-- The first entry word of a table that is no longer than its header is not inside. -/
theorem first_outside (rsdt len : Word) (short : len.toNat < 36) :
    ¬WordInside rsdt len (.word (entryAddress rsdt 0)) := by
  rw [WordInside,entryAddress_offset rsdt 0 (by decide)]
  omega

theorem madtLoop_words (rsdt len : Word) (mem : Memory) (end_ : Word) (fuel : Nat) (s : State) (ptr : Word) :
    Only (WordInside rsdt len) (madtLoop mem end_ fuel s ptr) := by
  induction fuel generalizing s ptr with
  | zero => exact only_quiet _ _
  | succ fuel ih =>
    by_cases turn : ptr < end_
    · have fields : ∀ e ∈ entryFields mem s ptr, WordInside rsdt len e := by
        intro e member
        rw [entryFields] at member
        split_ifs at member <;> simp only [List.mem_cons,List.not_mem_nil,or_false] at member
        · rcases member with rfl | rfl | rfl <;> trivial
        · rcases member with rfl | rfl <;> trivial
      rw [madtLoop_turn mem end_ fuel s ptr turn]
      refine List.forall_mem_cons.mpr ⟨trivial,List.forall_mem_cons.mpr ⟨trivial,?_⟩⟩
      exact List.forall_mem_append.mpr ⟨fields,ih (afterEntry mem s ptr) (ptr + entryStep mem ptr)⟩
    · rw [madtLoop,if_neg turn]
      exact only_pure _ _

theorem parseMadt_words (rsdt len : Word) (mem : Memory) (fuel : Nat) (s : State) (mt : Word) :
    Only (WordInside rsdt len) (blackAcpiParseMadt mem fuel s mt) := by
  rw [blackAcpiParseMadt,only_ite]
  exact ⟨fun _ => only_pure _ _,fun _ => madtLoop_words rsdt len mem _ fuel _ _⟩

theorem initEntry_words (len : Word) (fuel : Nat) (rsdt : Word) (i : Nat) (m : σ) (s : State) :
    Only (WordInside rsdt len) (initEntry view ensureMapped fuel rsdt i m s) ↔
      WordInside rsdt len (.word (entryAddress rsdt i)) := by
  rw [initEntry,only_bind,readEntryWord,only_logged]
  refine and_iff_left_of_imp fun _ tphys _ => ?_
  simp only [only_ite,only_bind,only_return,implies_true,and_true,true_and]
  exact fun _ _ _ => parseMadt_words rsdt len _ fuel s _

theorem initLoop_words (len : Word) (fuel : Nat) (rsdt : Word) (left i : Nat) (m : σ) (s : State)
    (long : 36 + 4 * (i + left) ≤ len.toNat) :
    Only (WordInside rsdt len) (initLoop view ensureMapped fuel rsdt left i m s) := by
  induction left generalizing i m s with
  | zero => exact only_pure _ _
  | succ left ih =>
    rw [initLoop,only_bind,initEntry_words]
    exact ⟨entry_inside rsdt len i (by omega),fun next _ => ih (i + 1) next.1 next.2 (by omega)⟩

theorem findLoop_words (len : Word) (sig : List Byte) (rsdt : Word) (left i : Nat) (m : σ)
    (long : 36 + 4 * (i + left) ≤ len.toNat) :
    Only (WordInside rsdt len) (findLoop view ensureMapped sig rsdt left i m) := by
  induction left generalizing i m with
  | zero => exact only_pure _ _
  | succ left ih =>
    rw [findLoop,only_bind,readEntryWord,only_logged]
    refine ⟨entry_inside rsdt len i (by omega),fun tphys _ => ?_⟩
    simp only [only_ite,only_return,implies_true,true_and]
    exact ⟨fun _ => ih (i + 1) m (by omega),fun _ _ => ih (i + 1) _ (by omega)⟩

/-- A table with no room for its header seems to have entries. -/
theorem short_entries (mem : Memory) (table : Word) (short : (tableLength mem table).toNat < 36) :
    ∃ left, entryCount mem table = left + 1 := by
  refine Nat.exists_eq_succ_of_ne_zero ?_
  rw [entryCount_eq]
  omega

theorem long_entries (mem : Memory) (table : Word) (long : 36 ≤ (tableLength mem table).toNat) :
    36 + 4 * (0 + entryCount mem table) ≤ (tableLength mem table).toNat := by
  have low := (tableLength mem table).isLt
  rw [entryCount_eq]
  omega

theorem initLoop_inside (fuel : Nat) (mem : Memory) (rsdt : Word) (m : σ) (s : State) :
    Only (WordInside rsdt (tableLength mem rsdt)) (initLoop view ensureMapped fuel rsdt (entryCount mem rsdt) 0 m s) ↔
      36 ≤ (tableLength mem rsdt).toNat := by
  by_cases long : 36 ≤ (tableLength mem rsdt).toNat
  · exact iff_of_true (initLoop_words view ensureMapped _ fuel rsdt _ 0 m s (long_entries mem rsdt long)) long
  · obtain ⟨left,entries⟩ := short_entries mem rsdt (Nat.lt_of_not_le long)
    refine iff_of_false (fun only => ?_) long
    rw [entries,initLoop,only_bind,initEntry_words] at only
    exact first_outside rsdt _ (Nat.lt_of_not_le long) only.1

theorem findLoop_inside (sig : List Byte) (mem : Memory) (rsdt : Word) (m : σ) :
    Only (WordInside rsdt (tableLength mem rsdt)) (findLoop view ensureMapped sig rsdt (entryCount mem rsdt) 0 m) ↔
      36 ≤ (tableLength mem rsdt).toNat := by
  by_cases long : 36 ≤ (tableLength mem rsdt).toNat
  · exact iff_of_true (findLoop_words view ensureMapped _ sig rsdt _ 0 m (long_entries mem rsdt long)) long
  · obtain ⟨left,entries⟩ := short_entries mem rsdt (Nat.lt_of_not_le long)
    refine iff_of_false (fun only => ?_) long
    rw [entries,findLoop,only_bind,readEntryWord,only_logged] at only
    exact first_outside rsdt _ (Nat.lt_of_not_le long) only.1

/-- `black_acpi_init` reads its entry words inside the RSDT that it has found. -/
def InitInside (fuel : Nat) (m : σ) (s : State) : Prop :=
  ∀ a, .word a ∈ (blackAcpiInit view ensureMapped fuel m s).events → ∃ m' s' rsdt,
    openRsdt view ensureMapped m s = (m',s',.ok rsdt) ∧ WordInside rsdt (tableLength (view m') rsdt) (.word a)

def FindInside (m : σ) (s : State) (sig : List Byte) : Prop :=
  ∀ a, .word a ∈ (blackAcpiFindTable view ensureMapped m s sig).events → ∃ rsdt,
    s.rsdt = some rsdt ∧ WordInside rsdt (tableLength (view m) rsdt) (.word a)

theorem words_only (rsdt len : Word) {α : Type} (x : Traced Access α) :
    (∀ a, .word a ∈ x.events → WordInside rsdt len (.word a)) ↔ Only (WordInside rsdt len) x := by
  refine ⟨fun words e member => ?_,fun only a member => only _ member⟩
  cases e with
  | word a => exact words a member
  | entry a => trivial
  | field a size => trivial

theorem init_inside (fuel : Nat) (m : σ) (s : State) : InitInside view ensureMapped fuel m s ↔
    ∀ m' s' rsdt, openRsdt view ensureMapped m s = (m',s',.ok rsdt) → 36 ≤ (tableLength (view m') rsdt).toNat := by
  rw [InitInside,blackAcpiInit]
  obtain ⟨m',s',outcome⟩ := openRsdt view ensureMapped m s
  cases outcome with
  | error code =>
    refine iff_of_true (fun a member => absurd member List.not_mem_nil) fun m'' s'' rsdt same => ?_
    cases same
  | ok rsdt =>
    have loop := initLoop_inside view ensureMapped fuel (view m') rsdt m' s'
    have whole : Only (WordInside rsdt (tableLength (view m') rsdt)) (initLoop view ensureMapped fuel rsdt
        (entryCount (view m') rsdt) 0 m' s' >>= fun last => pure (last.1,last.2,(0 : Int))) ↔
        36 ≤ (tableLength (view m') rsdt).toNat := by
      rw [only_bind,loop]
      exact and_iff_left fun _ _ => only_pure _ _
    rw [← words_only] at whole
    constructor
    · intro inside m'' s'' rsdt'' same
      cases same
      refine whole.mp fun a member => ?_
      obtain ⟨_,_,_,same,within⟩ := inside a member
      cases same
      exact within
    · exact fun long a member => ⟨m',s',rsdt,rfl,whole.mpr (long m' s' rsdt rfl) a member⟩

theorem find_inside (m : σ) (s : State) (sig : List Byte) : FindInside view ensureMapped m s sig ↔
    ∀ rsdt, s.rsdt = some rsdt → 36 ≤ (tableLength (view m) rsdt).toNat := by
  rw [FindInside,blackAcpiFindTable]
  cases s.rsdt with
  | none => exact iff_of_true (fun a member => absurd member List.not_mem_nil) nofun
  | some rsdt =>
    have loop := findLoop_inside view ensureMapped sig (view m) rsdt m
    rw [← words_only] at loop
    constructor
    · intro inside rsdt' same
      cases same
      refine loop.mp fun a member => ?_
      obtain ⟨_,same,within⟩ := inside a member
      cases same
      exact within
    · exact fun long a member => ⟨rsdt,rfl,loop.mpr (long rsdt rfl) a member⟩

end Tables

/-! The fields of the entries of the MADT. -/
section Fields
variable (mem : Memory) (mt : Word)

/-- The bytes of an entry of the MADT are read within the table. -/
def FieldInside : Access → Prop
  | .word _ => True
  | .entry a => mt.toNat ≤ a.toNat ∧ a.toNat + 1 ≤ mt.toNat + (tableLength mem mt).toNat
  | .field a size => mt.toNat ≤ a.toNat ∧ a.toNat + size ≤ mt.toNat + (tableLength mem mt).toNat

/-- The entry is read beyond its width: a processor while there is room for one, or the controller while there
is none. -/
def Read (s : State) (ptr : Word) : Prop :=
  mem ptr = 0 ∧ s.cpus.length < blackAcpiMaxCpus ∨ mem ptr = 1 ∧ s.ioapicAddr = 0

/-- The table has room for the first two bytes of an entry, and for eight when it is read beyond them. -/
def Room (ptr : Word) (read : Prop) : Prop := mt.toNat ≤ ptr.toNat ∧
  ptr.toNat + 2 ≤ mt.toNat + (tableLength mem mt).toNat ∧
  (read → ptr.toNat + 8 ≤ mt.toNat + (tableLength mem mt).toNat)

def afterEntries : Nat → State → Word → State
  | 0,s,_ => s
  | k+1,s,ptr => afterEntries k (afterEntry mem s ptr) (ptr + entryStep mem ptr)

section Turn
variable (ptr : Word) (there : mt ≠ 0) (turn : ptr < walkEnd mem mt)
include there turn

/-- A field of an entry that begins in the table is within it when the table has room behind. A field that goes
past the last address is not. -/
theorem field_inside (k size : Nat) (small : k < 2^32) (first : mt.toNat ≤ ptr.toNat)
    (reached : ptr.toNat + k ≤ mt.toNat + (tableLength mem mt).toNat + 1) :
    FieldInside mem mt (.field (ptr + word k) size) ↔ ptr.toNat + k + size ≤ mt.toNat + (tableLength mem mt).toNat := by
  have positive : mt.toNat ≠ 0 := fun zero => there (BitVec.eq_of_toNat_eq zero)
  have least := mt.isLt
  have low := (tableLength mem mt).isLt
  rw [walkEnd,BitVec.lt_def,BitVec.toNat_add] at turn
  rw [FieldInside,BitVec.toNat_add,word_toNat k small]
  omega

/-- The fields behind the width of an entry are within the table when it has room for eight bytes. -/
theorem fields_room (s : State) (first : mt.toNat ≤ ptr.toNat)
    (two : ptr.toNat + 2 ≤ mt.toNat + (tableLength mem mt).toNat) :
    (∀ e ∈ entryFields mem s ptr, FieldInside mem mt e) ↔
      (Read mem s ptr → ptr.toNat + 8 ≤ mt.toNat + (tableLength mem mt).toNat) := by
  have third : FieldInside mem mt (.field (ptr + 2) 1) ↔ ptr.toNat + 3 ≤ mt.toNat + (tableLength mem mt).toNat :=
    field_inside mem mt ptr there turn 2 1 (by decide) first (by omega)
  have fourth : FieldInside mem mt (.field (ptr + 3) 1) ↔ ptr.toNat + 4 ≤ mt.toNat + (tableLength mem mt).toNat :=
    field_inside mem mt ptr there turn 3 1 (by decide) first (by omega)
  have fifth (three : ptr.toNat + 3 ≤ mt.toNat + (tableLength mem mt).toNat) :
      FieldInside mem mt (.field (ptr + 4) 4) ↔ ptr.toNat + 8 ≤ mt.toNat + (tableLength mem mt).toNat :=
    field_inside mem mt ptr there turn 4 4 (by decide) first (by omega)
  rw [entryFields]
  by_cases processor : mem ptr = 0 ∧ s.cpus.length < blackAcpiMaxCpus
  · have read : Read mem s ptr := .inl processor
    rw [if_pos processor,forall_prop_of_true read,List.forall_mem_cons,List.forall_mem_cons,List.forall_mem_singleton,
      third,fourth]
    exact ⟨fun all => (fifth all.1).mp all.2.2,fun eight => ⟨by omega,by omega,(fifth (by omega)).mpr eight⟩⟩
  · by_cases controller : mem ptr = 1 ∧ s.ioapicAddr = 0
    · have read : Read mem s ptr := .inr controller
      rw [if_neg processor,if_pos controller,forall_prop_of_true read,List.forall_mem_cons,List.forall_mem_singleton,third]
      exact ⟨fun all => (fifth all.1).mp all.2,fun eight => ⟨by omega,(fifth (by omega)).mpr eight⟩⟩
    · rw [if_neg processor,if_neg controller]
      exact iff_of_true (fun e member => absurd member List.not_mem_nil) fun read => (read.elim processor controller).elim

theorem entry_room (s : State) :
    FieldInside mem mt (.entry ptr) ∧ FieldInside mem mt (.field (ptr + 1) 1) ∧
      (∀ e ∈ entryFields mem s ptr, FieldInside mem mt e) ↔ Room mem mt ptr (Read mem s ptr) := by
  have width (first : mt.toNat ≤ ptr.toNat) (one : ptr.toNat + 1 ≤ mt.toNat + (tableLength mem mt).toNat) :
      FieldInside mem mt (.field (ptr + 1) 1) ↔ ptr.toNat + 2 ≤ mt.toNat + (tableLength mem mt).toNat :=
    field_inside mem mt ptr there turn 1 1 (by decide) first (by omega)
  constructor
  · rintro ⟨⟨first,one⟩,length,fields⟩
    have two := (width first one).mp length
    exact ⟨first,two,(fields_room mem mt ptr there turn s first two).mp fields⟩
  · rintro ⟨first,two,eight⟩
    have one : ptr.toNat + 1 ≤ mt.toNat + (tableLength mem mt).toNat := by omega
    exact ⟨⟨first,one⟩,(width first one).mpr two,(fields_room mem mt ptr there turn s first two).mpr eight⟩

end Turn

/-- The loop reads within the table when it has room for all entries that it comes to, each one read as the
entries before it leave the variables. -/
theorem madtLoop_inside (there : mt ≠ 0) (s : State) (ptr : Word) :
    (∀ fuel, Only (FieldInside mem mt) (madtLoop mem (walkEnd mem mt) fuel s ptr)) ↔
      ∀ k, Before (entryStep mem) (walkEnd mem mt) ptr k →
        Room mem mt (place (entryStep mem) ptr k) (Read mem (afterEntries mem k s ptr) (place (entryStep mem) ptr k)) := by
  constructor
  · intro only k
    induction k generalizing s ptr with
    | zero =>
      intro before
      have turn := before 0 (Nat.le_refl 0)
      have turns := only 1
      rw [madtLoop_turn mem _ 0 s ptr turn,Only,List.forall_mem_cons,List.forall_mem_cons,List.forall_mem_append] at turns
      exact (entry_room mem mt ptr there turn s).mp ⟨turns.1,turns.2.1,turns.2.2.1⟩
    | succ k ih =>
      intro before
      obtain ⟨turn,rest⟩ := (before_succ _ _ _ k).mp before
      refine ih (afterEntry mem s ptr) (ptr + entryStep mem ptr) (fun fuel => ?_) rest
      have turns := only (fuel + 1)
      rw [madtLoop_turn mem _ fuel s ptr turn,Only,List.forall_mem_cons,List.forall_mem_cons,List.forall_mem_append] at turns
      exact turns.2.2.2
  · intro room fuel
    induction fuel generalizing s ptr with
    | zero => exact only_quiet _ _
    | succ fuel ih =>
      by_cases turn : ptr < walkEnd mem mt
      · obtain ⟨entry,length,fields⟩ := (entry_room mem mt ptr there turn s).mpr
          (room 0 ((before_zero _ _ _).mpr turn))
        have rest := ih (afterEntry mem s ptr) (ptr + entryStep mem ptr) fun k before =>
          room (k + 1) ((before_succ _ _ _ k).mpr ⟨turn,before⟩)
        rw [madtLoop_turn mem _ fuel s ptr turn]
        exact List.forall_mem_cons.mpr ⟨entry,List.forall_mem_cons.mpr ⟨length,List.forall_mem_append.mpr ⟨fields,rest⟩⟩⟩
      · rw [madtLoop,if_neg turn]
        exact only_pure _ _

/-- The entry of a processor that is in use. -/
def Enabled (ptr : Word) : Prop := mem ptr = 0 ∧ read32 mem (ptr + 4) &&& 1 ≠ 0

instance : DecidablePred (Enabled mem) := fun _ => inferInstanceAs (Decidable (_ ∧ _))

theorem afterEntry_room (s : State) (ptr : Word) (n : Nat) :
    (afterEntry mem s ptr).cpus.length + n < blackAcpiMaxCpus ↔
      s.cpus.length + (n + if Enabled mem ptr then 1 else 0) < blackAcpiMaxCpus := by
  rw [afterEntry]
  by_cases processor : mem ptr = 0
  · by_cases room : s.cpus.length < blackAcpiMaxCpus
    · rw [if_pos ⟨processor,room⟩]
      by_cases used : read32 mem (ptr + 4) &&& 1 ≠ 0
      · rw [if_pos used,if_pos ⟨processor,used⟩,List.length_append,List.length_singleton]
        omega
      · rw [if_neg used,if_neg fun both => used both.2]
        exact Iff.rfl
    · rw [if_neg fun both => room both.2,if_neg (by rw [processor]; exact fun both => absurd both.1 (by decide))]
      exact iff_of_false (by omega) (by omega)
  · rw [if_neg fun both => processor both.1,if_neg (fun both : Enabled mem ptr => processor both.1)]
    split_ifs <;> exact Iff.rfl

theorem afterEntry_ioapic (s : State) (ptr : Word) : (afterEntry mem s ptr).ioapicAddr = 0 ↔
    s.ioapicAddr = 0 ∧ (mem ptr = 1 → read32 mem (ptr + 4) = 0) := by
  rw [afterEntry]
  by_cases controller : mem ptr = 1
  · rw [if_neg (by rw [controller]; exact fun both => absurd both.1 (by decide)),forall_prop_of_true controller]
    by_cases unknown : s.ioapicAddr = 0
    · rw [if_pos ⟨controller,unknown⟩]
      exact (and_iff_right unknown).symm
    · rw [if_neg fun both => unknown both.2]
      exact iff_of_false unknown fun both => unknown both.1
  · have same : (s.ioapicAddr = 0 ∧ (mem ptr = 1 → read32 mem (ptr + 4) = 0)) ↔ s.ioapicAddr = 0 :=
      and_iff_left fun one => absurd one controller
    rw [same,if_neg (fun both : mem ptr = 1 ∧ s.ioapicAddr = 0 => controller both.1)]
    split_ifs <;> exact Iff.rfl

/-- What the entries before leave for the next one: fewer processors than there is room for, and no controller. -/
def Taken (s : State) (earlier : List Word) (ptr : Word) : Prop :=
  mem ptr = 0 ∧ s.cpus.length + earlier.countP (Enabled mem ·) < blackAcpiMaxCpus ∨
  mem ptr = 1 ∧ s.ioapicAddr = 0 ∧ ∀ q ∈ earlier, mem q = 1 → read32 mem (q + 4) = 0

section Earlier
variable (s : State) (last ptr : Word) (k : Nat) (before : Before (entryStep mem) last ptr k)
include before

theorem afterEntries_cpus : (afterEntries mem k s ptr).cpus.length < blackAcpiMaxCpus ↔
    s.cpus.length + (places (entryStep mem) last k ptr).countP (Enabled mem ·) < blackAcpiMaxCpus := by
  induction k generalizing s ptr with
  | zero => exact Iff.rfl
  | succ k ih =>
    obtain ⟨turn,rest⟩ := (before_succ _ _ _ k).mp before
    rw [afterEntries,ih _ _ rest,places,if_pos turn,List.countP_cons,afterEntry_room]
    simp only [decide_eq_true_eq]

theorem afterEntries_ioapic : (afterEntries mem k s ptr).ioapicAddr = 0 ↔ s.ioapicAddr = 0 ∧
    ∀ q ∈ places (entryStep mem) last k ptr, mem q = 1 → read32 mem (q + 4) = 0 := by
  induction k generalizing s ptr with
  | zero => exact (and_iff_left fun q member => absurd member List.not_mem_nil).symm
  | succ k ih =>
    obtain ⟨turn,rest⟩ := (before_succ _ _ _ k).mp before
    rw [afterEntries,ih _ _ rest,places,if_pos turn,List.forall_mem_cons,afterEntry_ioapic,and_assoc]

theorem afterEntries_read (q : Word) :
    Read mem (afterEntries mem k s ptr) q ↔ Taken mem s (places (entryStep mem) last k ptr) q := by
  rw [Read,Taken,afterEntries_cpus mem s last ptr k before,afterEntries_ioapic mem s last ptr k before]

end Earlier

/-- `black_acpi_parse_madt` reads the fields of the entries within the table. -/
def ParseInside (s : State) : Prop := ∀ fuel, Only (FieldInside mem mt) (blackAcpiParseMadt mem fuel s mt)

/-- No entry is cut off by the end of the table. -/
def Whole (s : State) : Prop := ∀ k, Before (entryStep mem) (walkEnd mem mt) (walkStart mt) k →
  Room mem mt (place (entryStep mem) (walkStart mt) k)
    (Taken mem s (places (entryStep mem) (walkEnd mem mt) k (walkStart mt)) (place (entryStep mem) (walkStart mt) k))

theorem parse_inside (there : mt ≠ 0) (s : State) : ParseInside mem mt s ↔ Whole mem mt s := by
  have loop := madtLoop_inside mem mt there {s with madt := some mt,lapicAddr := read32 mem (mt + 36)} (walkStart mt)
  simp only [ParseInside,blackAcpiParseMadt,if_neg there]
  refine loop.trans (forall_congr' fun k => forall_congr' fun before => ?_)
  rw [Room,Room,afterEntries_read mem _ _ _ k before]
  exact Iff.rfl

end Fields

/-- The three functions read within the tables exactly when the RSDT that they go by is no shorter than its
header, and no entry of the MADT is cut off. -/
theorem tables_inside_iff {σ : Type} (view : σ → Memory) (ensureMapped : σ → Word → Word → σ) (m : σ) (s : State) :
    (∀ fuel, InitInside view ensureMapped fuel m s ↔
      ∀ m' s' rsdt, openRsdt view ensureMapped m s = (m',s',.ok rsdt) → 36 ≤ (tableLength (view m') rsdt).toNat) ∧
    (∀ sig, FindInside view ensureMapped m s sig ↔
      ∀ rsdt, s.rsdt = some rsdt → 36 ≤ (tableLength (view m) rsdt).toNat) ∧
    ∀ mt, mt ≠ 0 → (ParseInside (view m) mt s ↔ Whole (view m) mt s) :=
  ⟨fun fuel => init_inside view ensureMapped fuel m s,find_inside view ensureMapped m s,
    fun mt there => parse_inside (view m) mt there s⟩

/-- An RSDP at 0xE0000 that names an RSDT at 1 MiB. All bytes of the RSDT are zero. -/
def shortRsdt : Memory := fun a =>
  if a = 0xC00E0000 then 0x52 else if a = 0xC00E0001 then 0x53 else if a = 0xC00E0002 then 0x44
  else if a = 0xC00E0003 then 0x20 else if a = 0xC00E0004 then 0x50 else if a = 0xC00E0005 then 0x54
  else if a = 0xC00E0006 then 0x52 else if a = 0xC00E0007 then 0x20 else if a = 0xC00E0008 then 0xD1
  else if a = 0xC00E0012 then 0x10 else 0

/-- A MADT of 45 bytes at 1 MiB that passes the checksum. Its one entry is of a processor. -/
def cutMadt : Memory := fun a =>
  if a = 0xC0100000 then 0x41 else if a = 0xC0100001 then 0x50 else if a = 0xC0100002 then 0x49
  else if a = 0xC0100003 then 0x43 else if a = 0xC0100004 then 45 else if a = 0xC0100009 then 0xB6 else 0

theorem shortRsdt_found : blackAcpiFindRsdp shortRsdt = some 0xC00E0000 := by
  rw [blackAcpiFindRsdp,if_neg (by decide),scanRsdp,if_pos (by decide)]
  rfl

theorem shortRsdt_opened : openRsdt id (fun m _ _ => m) shortRsdt boot =
    (shortRsdt,{boot with rsdp := some 0xC00E0000,rsdt := some 0xC0100000},.ok 0xC0100000) := by
  have phys : read32 shortRsdt (0xC00E0000 + 16) = 0x100000 := by decide
  have summed : blackAcpiChecksum shortRsdt (0x100000 + kernelVma) (tableLength shortRsdt (0x100000 + kernelVma)) =
    true := by decide
  simp only [openRsdt,id,shortRsdt_found,phys]
  rw [if_neg (by decide),if_neg (by rw [summed]; decide)]
  rfl

/-- The tables pass their checksums. The loop over the RSDT goes by 2^30 entries, and the walk over the MADT reads
the width of an entry behind the table. -/
theorem tables_outside : ¬InitInside id (fun m _ _ => m) 1 shortRsdt boot ∧
    blackAcpiChecksum cutMadt 0xC0100000 (tableLength cutMadt 0xC0100000) = true ∧
    ¬ParseInside cutMadt 0xC0100000 boot := by
  refine ⟨?_,by decide,?_⟩
  · rw [init_inside]
    intro long
    exact absurd (long _ _ _ shortRsdt_opened) (by decide)
  · rw [parse_inside cutMadt 0xC0100000 (by decide)]
    intro whole
    have room := whole 0 ((before_zero _ _ _).mpr (by decide))
    exact absurd room.2.1 (by decide)

end BlackOS.Acpi
