import BlackOS.Library.Ram
import BlackOS.Library.Run
import BlackOS.Library.Trace
import BlackOS.Library.Cursor

/-! `black_acpi_parse_madt` of `kernel/acpi/acpi.c`: the walk over the entries of the interrupt controllers. The
memory is as the kernel sees it; the reads of the entries are logged. -/
namespace BlackOS.Acpi
open BlackOS.Library.Ram BlackOS.Library.Run BlackOS.Library.Trace BlackOS.Library.Cursor

def blackAcpiMaxCpus : Nat := 16

/-- `sizeof(black_acpi_madt_t)`. -/
def madtSize : Word := 44

/-- `black_acpi_cpu_entry_t`. -/
structure CpuEntry where
  apicId : Byte
  processorId : Byte
  enabled : Byte

/-- The variables of the file; there are `black_acpi_cpu_count` entries in `cpus`. -/
structure State where
  rsdp : Option Word
  rsdt : Option Word
  madt : Option Word
  lapicAddr : Word
  ioapicAddr : Word
  ioapicId : Byte
  cpus : List CpuEntry

def boot : State := ⟨none,none,none,0,0,0,[]⟩

/-- A read of an entry word of the RSDT, of the first byte of an entry of the MADT, or of so many bytes of such
an entry. -/
inductive Access
  | word (addr : Word)
  | entry (addr : Word)
  | field (addr : Word) (size : Nat)

section Parse
variable (mem : Memory)

/-- `black_len` is an `int`: from 2^31 on there is no byte to add. -/
def blackAcpiChecksum (ptr len : Word) : Bool :=
  ((List.range len.toInt.toNat).foldl (fun sum i => sum + mem (ptr + word i)) (0 : Byte)) == 0

def readByte (a : Word) : Traced Access Byte := logged (.field a 1) (some (mem a))

def readWord (a : Word) : Traced Access Word := logged (.field a 4) (some (read32 mem a))

/-- The body of the loop: the variables after the entry, and its length. -/
def readEntry (s : State) (ptr : Word) : Traced Access (State × Byte) := do
  let type ← logged (.entry ptr) (some (mem ptr))
  let len ← readByte mem (ptr + 1)
  if type = 0 ∧ s.cpus.length < blackAcpiMaxCpus then
    let pid ← readByte mem (ptr + 2)
    let aid ← readByte mem (ptr + 3)
    let flags ← readWord mem (ptr + 4)
    return (if flags &&& 1 ≠ 0 then {s with cpus := s.cpus ++ [⟨aid,pid,1⟩]} else s,len)
  else if type = 1 ∧ s.ioapicAddr = 0 then
    let id ← readByte mem (ptr + 2)
    let addr ← readWord mem (ptr + 4)
    return ({s with ioapicId := id,ioapicAddr := addr},len)
  else return (s,len)

def madtLoop (end_ : Word) : Nat → State → Word → Traced Access State
  | 0,_,_ => quiet none
  | fuel+1,s,ptr =>
    if ptr < end_ then do
      let (s,len) ← readEntry mem s ptr
      madtLoop end_ fuel s (ptr + len.setWidth 32)
    else pure s

/-- `black_length` of the header of a table. -/
def tableLength (table : Word) : Word := read32 mem (table + 4)

def blackAcpiParseMadt (fuel : Nat) (s : State) (mt : Word) : Traced Access State :=
  if mt = 0 then pure s
  else madtLoop mem (mt + tableLength mem mt) fuel {s with madt := some mt,lapicAddr := read32 mem (mt + 36)} (mt + madtSize)

/-- What an entry leaves. -/
def afterEntry (s : State) (ptr : Word) : State :=
  if mem ptr = 0 ∧ s.cpus.length < blackAcpiMaxCpus then
    if read32 mem (ptr + 4) &&& 1 ≠ 0 then {s with cpus := s.cpus ++ [⟨mem (ptr + 3),mem (ptr + 2),1⟩]} else s
  else if mem ptr = 1 ∧ s.ioapicAddr = 0 then
    {s with ioapicId := mem (ptr + 2),ioapicAddr := read32 mem (ptr + 4)}
  else s

/-- The reads of an entry behind its length. -/
def entryFields (s : State) (ptr : Word) : List Access :=
  if mem ptr = 0 ∧ s.cpus.length < blackAcpiMaxCpus then [.field (ptr + 2) 1,.field (ptr + 3) 1,.field (ptr + 4) 4]
  else if mem ptr = 1 ∧ s.ioapicAddr = 0 then [.field (ptr + 2) 1,.field (ptr + 4) 4]
  else []

theorem readEntry_eq (s : State) (ptr : Word) : readEntry mem s ptr =
    ⟨.entry ptr::.field (ptr + 1) 1::entryFields mem s ptr,some (afterEntry mem s ptr,mem (ptr + 1))⟩ := by
  by_cases processor : mem ptr = 0 ∧ s.cpus.length < blackAcpiMaxCpus
  · simp only [readEntry,logged,readByte,readWord,entryFields,afterEntry,bind,Traced.bind,if_pos processor]
    rfl
  · by_cases controller : mem ptr = 1 ∧ s.ioapicAddr = 0
    · simp only [readEntry,logged,readByte,readWord,entryFields,afterEntry,bind,Traced.bind,if_neg processor,if_pos controller]
      rfl
    · simp only [readEntry,logged,readByte,readWord,entryFields,afterEntry,bind,Traced.bind,if_neg processor,if_neg controller]
      rfl

/-- The entry that an access begins with. -/
def Access.entry? : Access → Option Word
  | .entry a => some a
  | _ => none

/-- The entries that a computation comes to, one for each turn of the loop. -/
def visited {α : Type} (x : Traced Access α) : List Word := x.events.filterMap Access.entry?

/-- The width of an entry, which the loop adds to the pointer. -/
def entryStep (ptr : Word) : Word := (mem (ptr + 1)).setWidth 32

theorem entryStep_le (ptr : Word) : (entryStep mem ptr).toNat ≤ 255 := by
  have byte := (mem (ptr + 1)).isLt
  rw [entryStep,BitVec.toNat_setWidth]
  omega

theorem entryFields_none (s : State) (ptr : Word) : (entryFields mem s ptr).filterMap Access.entry? = [] := by
  rw [entryFields]
  split_ifs <;> rfl

theorem afterEntry_cpus (s : State) (ptr : Word) (few : s.cpus.length ≤ blackAcpiMaxCpus) :
    (afterEntry mem s ptr).cpus.length ≤ blackAcpiMaxCpus := by
  rw [afterEntry]
  split_ifs with processor enabled
  · rw [List.length_append]
    exact processor.2
  · exact few
  · exact few
  · exact few

theorem madtLoop_turn (end_ : Word) (fuel : Nat) (s : State) (ptr : Word) (turn : ptr < end_) :
    madtLoop mem end_ (fuel + 1) s ptr =
      ⟨.entry ptr::.field (ptr + 1) 1::(entryFields mem s ptr ++
        (madtLoop mem end_ fuel (afterEntry mem s ptr) (ptr + entryStep mem ptr)).events),
      (madtLoop mem end_ fuel (afterEntry mem s ptr) (ptr + entryStep mem ptr)).result⟩ := by
  rw [madtLoop,if_pos turn,readEntry_eq]
  rfl

theorem madtLoop_visited (end_ : Word) (fuel : Nat) (s : State) (ptr : Word) :
    visited (madtLoop mem end_ fuel s ptr) = places (entryStep mem) end_ fuel ptr := by
  induction fuel generalizing s ptr with
  | zero => rfl
  | succ fuel ih =>
    rw [places]
    by_cases turn : ptr < end_
    · have rest := ih (afterEntry mem s ptr) (ptr + entryStep mem ptr)
      rw [if_pos turn,← rest,madtLoop_turn mem end_ fuel s ptr turn]
      simp only [visited,Access.entry?,List.filterMap_cons,List.filterMap_append,entryFields_none,List.nil_append]
    · rw [if_neg turn,madtLoop,if_neg turn]
      rfl

/-- The loop ends in `n` turns when the cursor comes to the end by then. -/
theorem madtLoop_isSome (end_ : Word) (n : Nat) (s : State) (ptr : Word) :
    (madtLoop mem end_ (n + 1) s ptr).result.isSome ↔ ¬Before (entryStep mem) end_ ptr n := by
  induction n generalizing s ptr with
  | zero =>
    rw [before_zero]
    by_cases turn : ptr < end_
    · rw [madtLoop_turn mem end_ 0 s ptr turn]
      exact iff_of_false nofun fun refuted => refuted turn
    · rw [madtLoop,if_neg turn]
      exact iff_of_true rfl turn
  | succ n ih =>
    rw [before_succ]
    by_cases turn : ptr < end_
    · rw [madtLoop_turn mem end_ (n + 1) s ptr turn,and_iff_right turn]
      exact ih (afterEntry mem s ptr) (ptr + entryStep mem ptr)
    · rw [madtLoop,if_neg turn]
      exact iff_of_true rfl fun both => turn both.1

theorem madtLoop_cpus (end_ : Word) (fuel : Nat) (s s' : State) (ptr : Word) (few : s.cpus.length ≤ blackAcpiMaxCpus)
    (done : (madtLoop mem end_ fuel s ptr).result = some s') : s'.cpus.length ≤ blackAcpiMaxCpus := by
  induction fuel generalizing s ptr with
  | zero => cases done
  | succ fuel ih =>
    by_cases turn : ptr < end_
    · rw [madtLoop_turn mem end_ fuel s ptr turn] at done
      exact ih (afterEntry mem s ptr) (ptr + entryStep mem ptr) (afterEntry_cpus mem s ptr few) done
    · rw [madtLoop,if_neg turn] at done
      cases done
      exact few

theorem parseMadt_cpus (fuel : Nat) (s s' : State) (mt : Word) (few : s.cpus.length ≤ blackAcpiMaxCpus)
    (done : (blackAcpiParseMadt mem fuel s mt).result = some s') : s'.cpus.length ≤ blackAcpiMaxCpus := by
  rw [blackAcpiParseMadt] at done
  by_cases missing : mt = 0
  · rw [if_pos missing] at done
    cases done
    exact few
  · rw [if_neg missing] at done
    refine madtLoop_cpus mem _ fuel _ s' _ ?_ done
    exact few

/-! The walk over a table. -/
section Walk
variable (s : State) (mt : Word)

def walkStart : Word := mt + madtSize

def walkEnd : Word := mt + tableLength mem mt

/-- The loop ends, with a turn at most for each byte of the table, and no processor too many. -/
def Ends : Prop := ∃ fuel s', (blackAcpiParseMadt mem fuel s mt).result = some s' ∧
  s'.cpus.length ≤ blackAcpiMaxCpus ∧
  (visited (blackAcpiParseMadt mem fuel s mt)).length ≤ (tableLength mem mt).toNat

/-- Every turn is at a byte of the table, behind those of the turns before. -/
def Charged : Prop := ∀ fuel,
  (visited (blackAcpiParseMadt mem fuel s mt)).Pairwise (fun a b => (a - mt).toNat < (b - mt).toNat) ∧
  ∀ a ∈ visited (blackAcpiParseMadt mem fuel s mt), (a - mt).toNat < (tableLength mem mt).toNat

/-- No entry before the end of the table is of width zero or goes past the last address, and there are none
when the table is no longer than its header. -/
def Progresses : Prop := (walkStart mt < walkEnd mem mt → 44 < (tableLength mem mt).toNat) ∧
  Advances (entryStep mem) (walkEnd mem mt) (walkStart mt)

theorem parseMadt_visited (there : mt ≠ 0) (fuel : Nat) :
    visited (blackAcpiParseMadt mem fuel s mt) = places (entryStep mem) (walkEnd mem mt) fuel (walkStart mt) := by
  rw [blackAcpiParseMadt,if_neg there]
  exact madtLoop_visited mem _ fuel _ _

theorem parseMadt_isSome (there : mt ≠ 0) (n : Nat) :
    (blackAcpiParseMadt mem (n + 1) s mt).result.isSome ↔ ¬Before (entryStep mem) (walkEnd mem mt) (walkStart mt) n := by
  rw [blackAcpiParseMadt,if_neg there]
  exact madtLoop_isSome mem _ n _ _

theorem ends_iff_before (there : mt ≠ 0) (few : s.cpus.length ≤ blackAcpiMaxCpus) :
    Ends mem s mt ↔ ¬Before (entryStep mem) (walkEnd mem mt) (walkStart mt) (tableLength mem mt).toNat := by
  have count (fuel : Nat) : (places (entryStep mem) (walkEnd mem mt) fuel (walkStart mt)).length ≤ (tableLength mem mt).toNat ↔
      ¬((tableLength mem mt).toNat < fuel ∧
        Before (entryStep mem) (walkEnd mem mt) (walkStart mt) (tableLength mem mt).toNat) := by
    rw [← List.getElem?_eq_none_iff,Option.eq_none_iff_forall_ne_some]
    constructor
    · exact fun never both => never _ ((places_getElem? _ _ _ fuel _ _).mpr ⟨both.1,both.2,rfl⟩)
    · intro never q found
      obtain ⟨more,before,_⟩ := (places_getElem? _ _ _ fuel _ q).mp found
      exact never ⟨more,before⟩
  constructor
  · rintro ⟨fuel,s',done,_,turns⟩ before
    rw [parseMadt_visited mem s mt there,count] at turns
    cases fuel with
    | zero =>
      rw [blackAcpiParseMadt,if_neg there] at done
      cases done
    | succ n =>
      have ended := (parseMadt_isSome mem s mt there n).mp (Option.isSome_iff_exists.mpr ⟨s',done⟩)
      by_cases more : (tableLength mem mt).toNat < n + 1
      · exact turns ⟨more,before⟩
      · exact ended (before_mono _ _ _ n _ (by omega) before)
  · intro ended
    obtain ⟨s',done⟩ := Option.isSome_iff_exists.mp
      ((parseMadt_isSome mem s mt there (tableLength mem mt).toNat).mpr ended)
    refine ⟨_,s',done,parseMadt_cpus mem _ s s' mt few done,?_⟩
    rw [parseMadt_visited mem s mt there,count]
    exact fun both => ended both.2

theorem offset_toNat (q : Word) (longer : 44 < (tableLength mem mt).toNat) (above : (walkStart mt).toNat ≤ q.toNat)
    (below : q.toNat < (walkEnd mem mt).toNat) : (q - mt).toNat = 44 + (q.toNat - (walkStart mt).toNat) ∧
      (q - mt).toNat < (tableLength mem mt).toNat := by
  have header : madtSize.toNat = 44 := rfl
  have low := (tableLength mem mt).isLt
  have least := mt.isLt
  have place := q.isLt
  rw [walkStart,BitVec.toNat_add,header] at above ⊢
  rw [walkEnd,BitVec.toNat_add] at below
  rw [BitVec.toNat_sub]
  omega

theorem start_least (k : Nat) (advances : Advances (entryStep mem) (walkEnd mem mt) (walkStart mt))
    (before : Before (entryStep mem) (walkEnd mem mt) (walkStart mt) k) :
    (walkStart mt).toNat ≤ (place (entryStep mem) (walkStart mt) k).toNat := by
  have far := place_far _ _ _ advances 0 k (Nat.zero_le k) before
  rw [place] at far
  omega

theorem ends_of_progresses (there : mt ≠ 0) (few : s.cpus.length ≤ blackAcpiMaxCpus) (progresses : Progresses mem mt) :
    Ends mem s mt := by
  rw [ends_iff_before mem s mt there few]
  obtain ⟨longer,advances⟩ := progresses
  intro before
  have first : walkStart mt < walkEnd mem mt := before 0 (Nat.zero_le _)
  have inside := BitVec.lt_def.mp first
  obtain ⟨_,most⟩ := offset_toNat mem mt (walkStart mt) (longer first) (Nat.le_refl _) inside
  have last : (walkEnd mem mt).toNat - (walkStart mt).toNat ≤ (tableLength mem mt).toNat := by
    have header : madtSize.toNat = 44 := rfl
    have low := mt.isLt
    rw [walkStart,walkEnd,BitVec.toNat_add,BitVec.toNat_add,header] at inside ⊢
    have size := longer first
    omega
  exact advances_ends _ _ _ advances (before_mono _ _ _ _ _ last before)

theorem charged_of_progresses (there : mt ≠ 0) (progresses : Progresses mem mt) : Charged mem s mt := by
  obtain ⟨longer,advances⟩ := progresses
  have inside (k : Nat) (before : Before (entryStep mem) (walkEnd mem mt) (walkStart mt) k) :=
    offset_toNat mem mt _ (longer (before 0 (Nat.zero_le k))) (start_least mem mt k advances before)
      (BitVec.lt_def.mp (before k (Nat.le_refl k)))
  intro fuel
  rw [parseMadt_visited mem s mt there]
  constructor
  · rw [List.pairwise_iff_getElem]
    intro i j low high ordered
    obtain ⟨_,earlier,first⟩ := (places_getElem? _ _ _ fuel i _).mp (List.getElem?_eq_getElem low)
    obtain ⟨_,later,second⟩ := (places_getElem? _ _ _ fuel j _).mp (List.getElem?_eq_getElem high)
    have far := place_far _ _ _ advances i j (Nat.le_of_lt ordered) later
    rw [← first,← second,(inside i earlier).1,(inside j later).1]
    have least := start_least mem mt i advances earlier
    omega
  · intro q member
    obtain ⟨k,_,before,rfl⟩ := (mem_places _ _ _ fuel q).mp member
    exact (inside k before).2

/-- A step past the last address of the memory leads to an address below the end. -/
theorem past_before (k : Nat) (before : Before (entryStep mem) (walkEnd mem mt) (walkStart mt) k)
    (past : 2^32 ≤ (place (entryStep mem) (walkStart mt) k).toNat +
      (entryStep mem (place (entryStep mem) (walkStart mt) k)).toNat) :
    Before (entryStep mem) (walkEnd mem mt) (walkStart mt) (k + 1) ∧
      (place (entryStep mem) (walkStart mt) (k + 1)).toNat + 2^32 = (place (entryStep mem) (walkStart mt) k).toNat +
        (entryStep mem (place (entryStep mem) (walkStart mt) k)).toNat := by
  have here := BitVec.lt_def.mp (before k (Nat.le_refl k))
  have width := entryStep_le mem (place (entryStep mem) (walkStart mt) k)
  have low := (place (entryStep mem) (walkStart mt) k).isLt
  have next : (place (entryStep mem) (walkStart mt) (k + 1)).toNat + 2^32 = (place (entryStep mem) (walkStart mt) k).toNat +
      (entryStep mem (place (entryStep mem) (walkStart mt) k)).toNat := by
    rw [place_succ,BitVec.toNat_add]
    omega
  refine ⟨fun j least => ?_,next⟩
  by_cases earlier : j ≤ k
  · exact before j earlier
  · obtain rfl : j = k + 1 := by omega
    rw [BitVec.lt_def]
    omega

theorem progresses_of_charged (there : mt ≠ 0) (few : s.cpus.length ≤ blackAcpiMaxCpus) (ends : Ends mem s mt)
    (charged : Charged mem s mt) : Progresses mem mt := by
  rw [ends_iff_before mem s mt there few] at ends
  have listed (k fuel : Nat) (more : k < fuel) (before : Before (entryStep mem) (walkEnd mem mt) (walkStart mt) k) :
      (visited (blackAcpiParseMadt mem fuel s mt))[k]? = some (place (entryStep mem) (walkStart mt) k) := by
    rw [parseMadt_visited mem s mt there]
    exact (places_getElem? _ _ _ fuel k _).mpr ⟨more,before,rfl⟩
  constructor
  · intro first
    have start := listed 0 1 Nat.zero_lt_one ((before_zero _ _ _).mpr first)
    have inside := (charged 1).2 _ (List.mem_of_getElem? start)
    have header : (place (entryStep mem) (walkStart mt) 0 - mt).toNat = 44 := by
      rw [place,walkStart,BitVec.add_comm,BitVec.add_sub_cancel]
      rfl
    omega
  · intro k before
    refine ⟨fun still => ends (before_stuck _ _ _ k before still _),?_⟩
    by_contra past
    obtain ⟨onward,next⟩ := past_before mem mt k before (Nat.le_of_not_lt past)
    obtain ⟨lower,first⟩ := List.getElem?_eq_some_iff.mp (listed k (k + 2) (by omega) before)
    obtain ⟨higher,second⟩ := List.getElem?_eq_some_iff.mp (listed (k + 1) (k + 2) (by omega) onward)
    have ordered := List.pairwise_iff_getElem.mp (charged (k + 2)).1 k (k + 1) lower higher (Nat.lt_succ_self k)
    rw [first,second,BitVec.toNat_sub,BitVec.toNat_sub] at ordered
    have end_ : (walkEnd mem mt).toNat = (mt.toNat + (tableLength mem mt).toNat) % 2^32 := by
      rw [walkEnd,BitVec.toNat_add]
    have inside := (charged (k + 2)).2 _ (List.mem_of_getElem? (listed (k + 1) (k + 2) (by omega) onward))
    rw [BitVec.toNat_sub] at inside
    have here := BitVec.lt_def.mp (before k (Nat.le_refl k))
    have width := entryStep_le mem (place (entryStep mem) (walkStart mt) k)
    have low := (place (entryStep mem) (walkStart mt) k).isLt
    have least := mt.isLt
    have size := (tableLength mem mt).isLt
    omega

/-- In a table of less than 16 megabytes, the number of turns tells a walk that goes past the last address. -/
theorem progresses_of_ends (there : mt ≠ 0) (few : s.cpus.length ≤ blackAcpiMaxCpus)
    (small : (tableLength mem mt).toNat < 2^24) (ends : Ends mem s mt) : Progresses mem mt := by
  rw [ends_iff_before mem s mt there few] at ends
  refine ⟨fun first => ?_,ends_advances _ _ _ 255 (entryStep_le mem) _ (by omega) ends⟩
  by_contra short
  refine ends (before_far _ _ _ 255 (entryStep_le mem) _ ?_)
  rw [BitVec.lt_def] at first
  have header : madtSize.toNat = 44 := rfl
  have least := mt.isLt
  have size := (tableLength mem mt).isLt
  rw [walkStart,walkEnd,BitVec.toNat_add,BitVec.toNat_add,header] at first ⊢
  omega

end Walk

end Parse

/-- What changes the variables: `black_acpi_init` notes the tables that it finds, and a walk over a table ends. -/
inductive Change
  | found (rsdp rsdt : Option Word)
  | walked (mem : Memory) (mt : Word)

def next (s : State) : Change → State → Prop
  | .found rsdp rsdt,s' => s' = {s with rsdp := rsdp,rsdt := rsdt}
  | .walked mem mt,s' => ∃ fuel, (blackAcpiParseMadt mem fuel s mt).result = some s'

theorem run_cpus (changes : List Change) (s : State) (run : Steps next boot changes s) :
    s.cpus.length ≤ blackAcpiMaxCpus := by
  refine run.invariant (fun s => s.cpus.length ≤ blackAcpiMaxCpus) (Nat.zero_le _) fun s change s' few step => ?_
  cases change with
  | found rsdp rsdt =>
    cases step
    exact few
  | walked mem mt =>
    obtain ⟨fuel,done⟩ := step
    exact parseMadt_cpus mem fuel s s' mt few done

/-- The walk ends in time, each turn at its own byte of the table, exactly when every entry before the end has a
width that is not zero and does not lead past the last address. For a table of less than 16 megabytes it need
only end in time. -/
theorem madt_ends_iff (mem : Memory) (changes : List Change) (s : State) (run : Steps next boot changes s) (mt : Word)
    (there : mt ≠ 0) : (Ends mem s mt ∧ Charged mem s mt ↔ Progresses mem mt) ∧
      ((tableLength mem mt).toNat < 2^24 → (Ends mem s mt ↔ Progresses mem mt)) := by
  have few := run_cpus changes s run
  refine ⟨⟨fun both => progresses_of_charged mem s mt there few both.1 both.2,fun progresses => ⟨?_,?_⟩⟩,
    fun small => ⟨progresses_of_ends mem s mt there few small,ends_of_progresses mem s mt there few⟩⟩
  · exact ends_of_progresses mem s mt there few progresses
  · exact charged_of_progresses mem s mt there progresses

/-- A table of 46 bytes at 1 MiB that passes the checksum. The bytes of its one entry are zero. -/
def stuckMadt : Memory := fun a =>
  if a = 0xC0100000 then 0x41 else if a = 0xC0100001 then 0x50 else if a = 0xC0100002 then 0x49
  else if a = 0xC0100003 then 0x43 else if a = 0xC0100004 then 46 else if a = 0xC0100009 then 0xB5 else 0

theorem madt_ends_iff_stuck : (Ends stuckMadt boot 0xC0100000 ∧ Charged stuckMadt boot 0xC0100000 ↔
      Progresses stuckMadt 0xC0100000) ∧
    ((tableLength stuckMadt 0xC0100000).toNat < 2^24 →
      (Ends stuckMadt boot 0xC0100000 ↔ Progresses stuckMadt 0xC0100000)) :=
  madt_ends_iff stuckMadt [] boot (.nil) 0xC0100000 (by decide)

theorem madt_stuck : blackAcpiChecksum stuckMadt 0xC0100000 (tableLength stuckMadt 0xC0100000) = true ∧
    ¬Ends stuckMadt boot 0xC0100000 := by
  refine ⟨by decide,?_⟩
  rw [ends_iff_before stuckMadt boot 0xC0100000 (by decide) (Nat.zero_le _),not_not]
  exact before_stuck _ _ _ 0 ((before_zero _ _ _).mpr (by decide)) (by decide) _

end BlackOS.Acpi
