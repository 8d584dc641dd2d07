import BlackOS.ElfTouches

/-! The offsets at which the loader reads the image. Its reads go through a function of the machine and the offset, and
are logged whether they succeed or not; the size of the image is an argument that the source ignores. -/
namespace BlackOS.Elf
open BlackOS.Library.Ram BlackOS.Library.Trace
open BlackOS.Vmm

section Loader
variable (read : Machine → Word → Option Byte)

def readByte (s : Machine) (o : Word) : Traced Word Byte := logged o (read s o)

def readHalf (s : Machine) (o : Word) : Traced Word Half := do
  let low ← readByte read s o
  let high ← readByte read s (o + 1)
  return high ++ low

def readWord (s : Machine) (o : Word) : Traced Word Word := do
  let low ← readHalf read s o
  let high ← readHalf read s (o + 2)
  return high ++ low

def validateReads (s : Machine) : Traced Word Int := do
  if (← readWord read s 0) ≠ blackElfMagic then return -1
  if (← readByte read s 4) ≠ 1 then return -2
  if (← readHalf read s 18) ≠ blackEm386 then return -3
  if (← readHalf read s 16) ≠ blackEtExec then return -4
  return 0

def memcpyReads : Nat → Machine → Word → Word → Traced Word Machine
  | 0,s,_,_ => pure s
  | n+1,s,d,src => do
    let x ← readByte read s src
    let s ← quiet (s.store8 d x)
    memcpyReads n s (d+1) (src+1)

def copyFileReads (s : Machine) (vaddr src filesz : Word) : Traced Word Machine :=
  if 0 < filesz then memcpyReads read filesz.toNat s vaddr src else pure s

/-- A round for a segment whose fields have been read. -/
def roundReads (s : Machine) (x : Segment) : Traced Word (Machine × Bool) := do
  let (s,mapped) ← quiet (mapSegment x.vaddr x.memsz x.pageFlags (2^20 + 1) 0 s)
  if !mapped then return (s,false)
  let s ← copyFileReads read s x.vaddr x.offset x.filesz
  let s ← quiet (zeroRest s x.vaddr x.filesz x.memsz)
  return (s,true)

def loadSegmentReads (s : Machine) (phdr : Word) : Traced Word (Machine × Bool) := do
  if (← readWord read s phdr) ≠ blackPtLoad then return (s,true)
  let vaddr ← readWord read s (phdr + 8)
  let memsz ← readWord read s (phdr + 20)
  let filesz ← readWord read s (phdr + 16)
  let offset ← readWord read s (phdr + 4)
  let flags ← readWord read s (phdr + 24)
  roundReads read s ⟨vaddr,memsz,filesz,offset,flags⟩

def loadSegmentsReads (phdrs : Word) : Nat → Nat → Machine → Traced Word (Machine × Bool)
  | 0,_,_ => quiet none
  | fuel+1,i,s => do
    let phnum ← readHalf read s 44
    if i < phnum.toNat then
      let (s,loaded) ← loadSegmentReads read s (phdrs + word (32 * i))
      if loaded then loadSegmentsReads phdrs fuel (i+1) s else return (s,false)
    else return (s,true)

def loadReads (s : Machine) : Traced Word (Machine × Word) := do
  if (← validateReads read s) ≠ 0 then return (s,0)
  let phoff ← readWord read s 28
  let (s,loaded) ← loadSegmentsReads read phoff (2^16) 0 s
  if loaded then
    let entry ← readWord read s 24
    return (s,entry)
  else return (s,0)

end Loader

/-- The bytes of a buffer, and whatever lies past its end. -/
abbrev Contents := Word → Byte

def Contents.half (b : Contents) (o : Word) : Half := b (o + 1) ++ b o

def Contents.word (b : Contents) (o : Word) : Word := b.half (o + 2) ++ b.half o

def Contents.segmentAt (b : Contents) (o : Word) : Segment :=
  ⟨b.word (o + 8),b.word (o + 20),b.word (o + 16),b.word (o + 4),b.word (o + 24)⟩

def Contents.phnum (b : Contents) : Nat := (b.half 44).toNat

/-- Where the loader finds program header `i`. -/
def Contents.header (b : Contents) (i : Nat) : Word := b.word 28 + BlackOS.Library.Ram.word (32 * i)

/-- A buffer that no write changes. -/
def fixed (b : Contents) : Machine → Word → Option Byte := fun _ o => some (b o)

/-- The buffer at an address. -/
def inMemory (data : Word) : Machine → Word → Option Byte := fun s o => s.load8 (data + o)

def Within (size o : Word) : Prop := o.toNat < size.toNat

/-- The fields that `black_elf_validate` reads, each if those before have their values. -/
def ValidateInside (b : Contents) (size : Word) : Prop :=
  4 ≤ size.toNat ∧ (b.word 0 = blackElfMagic → 5 ≤ size.toNat ∧ (b 4 = 1 → 20 ≤ size.toNat))

structure Valid (b : Contents) : Prop where
  magic : b.word 0 = blackElfMagic
  bits : b 4 = 1
  machine : b.half 18 = blackEm386
  type : b.half 16 = blackEtExec

/-- The type of a program header is inside and, if it is one to load, so are the other fields and the bytes of the
file. -/
def HeaderInside (b : Contents) (size o : Word) : Prop :=
  o.toNat + 4 ≤ size.toNat ∧ (b.word o = blackPtLoad →
    (∀ k ∈ ([8,20,16,4,24] : List Word), (o + k).toNat + 4 ≤ size.toNat) ∧
    ((b.segmentAt o).filesz.toNat = 0 ∨
      (b.segmentAt o).offset.toNat + (b.segmentAt o).filesz.toNat ≤ size.toNat))

/-- All that a whole load reads is inside. -/
def ImageInside (b : Contents) (size : Word) : Prop :=
  ValidateInside b size ∧ (Valid b → 46 ≤ size.toNat ∧ ∀ i < b.phnum, HeaderInside b size (b.header i))

/-- A computation whose reads are inside under a condition, and that then has a value. -/
structure Gives {α : Type} (size : Word) (x : Traced Word α) (fits : Prop) (a : α) : Prop where
  only : Only (Within size) x ↔ fits
  value : fits → x.result = some a

section Bind
variable {α β : Type} (size : Word) (x : Traced Word α) (fits : Prop) (a : α) (gives : Gives size x fits a)
  (f : α → Traced Word β)
include gives

theorem bind_within : Only (Within size) (x >>= f) ↔ fits ∧ Only (Within size) (f a) := by
  rw [only_bind,gives.only]
  refine and_congr_right fun inside => ?_
  rw [gives.value inside]
  simp only [Option.some_inj,forall_eq']

theorem bind_value (inside : fits) : (x >>= f).result = (f a).result := by
  rw [result_bind,gives.value inside]
  rfl

end Bind

section Fields
variable (read : Machine → Word → Option Byte) (b : Contents) (size : Word) (s : Machine)
  (agree : ∀ o, Within size o → read s o = some (b o)) (o : Word)
include agree

theorem readByte_gives : Gives size (readByte read s o) (o.toNat + 1 ≤ size.toNat) (b o) :=
  ⟨only_logged _ _ _,fun inside => agree o inside⟩

omit agree in
/-- Two parts of a field, the lower first. -/
theorem append_gives {v w : Nat} (x : Traced Word (BitVec v)) (y : Traced Word (BitVec w)) (low : BitVec v)
    (high : BitVec w) (first second both : Prop) (lower : Gives size x first low) (upper : Gives size y second high)
    (parts : first ∧ second ↔ both) :
    Gives size (do
      let low ← x
      let high ← y
      return high ++ low) both (high ++ low) := by
  rw [← parts]
  refine ⟨?_,fun inside => ?_⟩
  · rw [bind_within _ _ _ _ lower,bind_within _ _ _ _ upper]
    exact and_congr_right fun _ => and_iff_left (only_pure _ _)
  · rw [bind_value _ _ _ _ lower _ inside.1,bind_value _ _ _ _ upper _ inside.2]
    rfl

theorem readHalf_gives : Gives size (readHalf read s o) (o.toNat + 2 ≤ size.toNat) (b.half o) := by
  have whole := size.isLt
  exact append_gives size _ _ _ _ _ _ _ (readByte_gives read b size s agree o)
    (readByte_gives read b size s agree (o + 1)) (by bv_omega)

theorem readWord_gives : Gives size (readWord read s o) (o.toNat + 4 ≤ size.toNat) (b.word o) := by
  have whole := size.isLt
  exact append_gives size _ _ _ _ _ _ _ (readHalf_gives read b size s agree o)
    (readHalf_gives read b size s agree (o + 2)) (by bv_omega)

theorem validate_within : Only (Within size) (validateReads read s) ↔ ValidateInside b size := by
  have magic := bind_within (β := Int) _ _ _ _ (readWord_gives read b size s agree 0)
  have bits := bind_within (β := Int) _ _ _ _ (readByte_gives read b size s agree 4)
  have machine := bind_within (β := Int) _ _ _ _ (readHalf_gives read b size s agree 18)
  have type := bind_within (β := Int) _ _ _ _ (readHalf_gives read b size s agree 16)
  rw [validateReads,magic,only_ite,bits,only_ite,machine,only_ite,type]
  simp only [only_ite,only_return,implies_true,true_and,and_true,not_not,ne_eq]
  change 0 + 4 ≤ size.toNat ∧ (_ → 4 + 1 ≤ size.toNat ∧ (_ → 18 + 2 ≤ size.toNat ∧ (_ → 16 + 2 ≤ size.toNat))) ↔ _
  refine and_congr (by omega) (imp_congr_right fun _ => and_congr_right fun _ => imp_congr_right fun _ => ?_)
  omega

theorem validate_value (inside : ValidateInside b size) :
    ∃ code, (validateReads read s).result = some code ∧ (code = 0 ↔ Valid b) := by
  obtain ⟨first,rest⟩ := inside
  rw [validateReads,bind_value _ _ _ _ (readWord_gives read b size s agree 0) _ first]
  by_cases magic : b.word 0 = blackElfMagic
  · obtain ⟨second,rest⟩ := rest magic
    rw [if_neg (not_not_intro magic),bind_value _ _ _ _ (readByte_gives read b size s agree 4) _ second]
    by_cases bits : b 4 = 1
    · have third := rest bits
      have fourth : (16 : Word).toNat + 2 ≤ size.toNat := le_trans (by decide) third
      rw [if_neg (not_not_intro bits),bind_value _ _ _ _ (readHalf_gives read b size s agree 18) _ third]
      by_cases machine : b.half 18 = blackEm386
      · rw [if_neg (not_not_intro machine),bind_value _ _ _ _ (readHalf_gives read b size s agree 16) _ fourth]
        by_cases type : b.half 16 = blackEtExec
        · rw [if_neg (not_not_intro type)]
          exact ⟨0,rfl,iff_of_true rfl ⟨magic,bits,machine,type⟩⟩
        · rw [if_pos type]
          exact ⟨-4,rfl,iff_of_false (by decide) fun valid => type valid.type⟩
      · rw [if_pos machine]
        exact ⟨-3,rfl,iff_of_false (by decide) fun valid => machine valid.machine⟩
    · rw [if_pos bits]
      exact ⟨-2,rfl,iff_of_false (by decide) fun valid => bits valid.bits⟩
  · rw [if_pos magic]
    exact ⟨-1,rfl,iff_of_false (by decide) fun valid => magic valid.magic⟩

/-- The fields of a header to load are read before its round. -/
theorem loadSegment_within : Only (Within size) (loadSegmentReads read s o) ↔ o.toNat + 4 ≤ size.toNat ∧
    (b.word o = blackPtLoad → (∀ k ∈ ([8,20,16,4,24] : List Word), (o + k).toNat + 4 ≤ size.toNat) ∧
      Only (Within size) (roundReads read s (b.segmentAt o))) := by
  have field (o : Word) := bind_within (β := Machine × Bool) _ _ _ _ (readWord_gives read b size s agree o)
  rw [loadSegmentReads,field,only_ite]
  simp only [field,only_return,implies_true,true_and,not_not,ne_eq,List.forall_mem_cons,List.not_mem_nil,
    IsEmpty.forall_iff,and_assoc,Contents.segmentAt]

theorem loadSegment_value (first : o.toNat + 4 ≤ size.toNat)
    (fields : b.word o = blackPtLoad → ∀ k ∈ ([8,20,16,4,24] : List Word), (o + k).toNat + 4 ≤ size.toNat) :
    (loadSegmentReads read s o).result = if b.word o = blackPtLoad then (roundReads read s (b.segmentAt o)).result
      else some (s,true) := by
  have field (o : Word) := bind_value (β := Machine × Bool) _ _ _ _ (readWord_gives read b size s agree o)
  rw [loadSegmentReads,field o _ first]
  by_cases load : b.word o = blackPtLoad
  · have inside := fields load
    simp only [List.forall_mem_cons] at inside
    obtain ⟨vaddr,memsz,filesz,offset,flags,_⟩ := inside
    rw [if_neg (not_not_intro load),if_pos load,field _ _ vaddr,field _ _ memsz,field _ _ filesz,field _ _ offset,
      field _ _ flags]
    rfl
  · rw [if_pos load,if_neg load]
    rfl

end Fields

section Rounds
variable (read : Machine → Word → Option Byte) (size : Word)

theorem half_inside (s : Machine) (o : Word) (inside : o.toNat + 2 ≤ size.toNat) :
    Only (Within size) (readHalf read s o) := by
  have whole := size.isLt
  have next : (o + 1).toNat + 1 ≤ size.toNat := by bv_omega
  refine (only_bind _ _ _).mpr ⟨(only_logged _ _ _).mpr (by unfold Within; omega),fun low _ => ?_⟩
  exact (only_bind _ _ _).mpr ⟨(only_logged _ _ _).mpr next,fun high _ => only_pure _ _⟩

theorem word_inside (s : Machine) (o : Word) (inside : o.toNat + 4 ≤ size.toNat) :
    Only (Within size) (readWord read s o) := by
  have whole := size.isLt
  have next : (o + 2).toNat + 2 ≤ size.toNat := by bv_omega
  refine (only_bind _ _ _).mpr ⟨half_inside read size s o (by omega),fun low _ => ?_⟩
  exact (only_bind _ _ _).mpr ⟨half_inside read size s (o + 2) next,fun high _ => only_pure _ _⟩

/-- A copy from inside reads inside, however far it comes. -/
theorem memcpy_within (n : Nat) (s : Machine) (d src : Word) (inside : n = 0 ∨ src.toNat + n ≤ size.toNat) :
    Only (Within size) (memcpyReads read n s d src) := by
  induction n generalizing s d src with
  | zero => exact only_pure _ _
  | succ n ih =>
    have fits := inside.resolve_left (Nat.succ_ne_zero n)
    have whole := size.isLt
    refine (only_bind _ _ _).mpr ⟨(only_logged _ _ _).mpr ?_,fun x _ => ?_⟩
    · unfold Within
      omega
    · refine (only_bind _ _ _).mpr ⟨only_quiet _ _,fun s' _ => ih s' (d + 1) (src + 1) ?_⟩
      have next : n = 0 ∨ (src + 1).toNat = src.toNat + 1 := by bv_omega
      omega

/-- A completed copy has read its whole source. -/
theorem memcpy_source (n : Nat) (s s' : Machine) (d src : Word) (only : Only (Within size) (memcpyReads read n s d src))
    (done : (memcpyReads read n s d src).result = some s') : ∀ i < n, Within size (src + word i) := by
  induction n generalizing s d src with
  | zero =>
    intro i inside
    omega
  | succ n ih =>
    obtain ⟨here,copying⟩ := (only_bind _ _ _).mp only
    rw [memcpyReads,result_bind] at done
    obtain ⟨x,loaded,done⟩ := Option.bind_eq_some_iff.mp done
    have storing := ((only_bind _ _ _).mp (copying x loaded)).2
    rw [result_bind] at done
    obtain ⟨s₁,stored,done⟩ := Option.bind_eq_some_iff.mp done
    exact range_next (Within size) src n ((only_logged _ _ _).mp here) (ih s₁ (d + 1) (src + 1) (storing s₁ stored) done)

/-- A range whose places are inside does not wrap around. -/
theorem range_within (d : Word) (n : Nat) (inside : ∀ i < n, Within size (d + word i)) :
    n = 0 ∨ d.toNat + n ≤ size.toNat := by
  by_cases empty : n = 0
  · exact .inl empty
  · right
    have whole := size.isLt
    have start := inside 0 (by omega)
    rw [show d + word 0 = d from BitVec.add_zero d] at start
    unfold Within at start
    by_contra wraps
    have last := inside (size.toNat - d.toNat) (by omega)
    unfold Within at last
    rw [BitVec.toNat_add,word_toNat _ (by omega)] at last
    omega

theorem round_within (s : Machine) (x : Segment)
    (inside : x.filesz.toNat = 0 ∨ x.offset.toNat + x.filesz.toNat ≤ size.toNat) :
    Only (Within size) (roundReads read s x) := by
  refine (only_bind _ _ _).mpr ⟨only_quiet _ _,fun mapped _ => ?_⟩
  obtain ⟨s₁,flag⟩ := mapped
  cases flag with
  | false => exact only_pure _ _
  | true =>
    refine (only_bind _ _ _).mpr ⟨?_,fun s₂ _ => (only_bind _ _ _).mpr ⟨only_quiet _ _,fun s₃ _ => only_pure _ _⟩⟩
    rw [copyFileReads]
    split
    · exact memcpy_within read size _ s₁ _ _ inside
    · exact only_pure _ _

theorem round_source (s s' : Machine) (x : Segment) (only : Only (Within size) (roundReads read s x))
    (done : (roundReads read s x).result = some (s',true)) :
    x.filesz.toNat = 0 ∨ x.offset.toNat + x.filesz.toNat ≤ size.toNat := by
  rw [roundReads,result_bind] at done
  obtain ⟨⟨s₁,mapped⟩,pages,done⟩ := Option.bind_eq_some_iff.mp done
  have copying := ((only_bind _ _ _).mp only).2 (s₁,mapped) pages
  cases mapped with
  | false => cases done
  | true =>
    simp only [Bool.not_true,Bool.false_eq_true,if_false,result_bind] at done
    obtain ⟨s₂,copied,_⟩ := Option.bind_eq_some_iff.mp done
    have copying := ((only_bind _ _ _).mp copying).1
    rw [copyFileReads] at copied copying
    by_cases some_ : 0 < x.filesz
    · rw [if_pos some_] at copied copying
      exact range_within size _ _ (memcpy_source read size _ s₁ s₂ _ _ copying copied)
    · rw [BitVec.lt_def] at some_
      exact .inl (Nat.eq_zero_of_not_pos some_)

end Rounds

/-! The walk over the headers, while an invariant of the machine keeps the bytes of the buffer as they are. -/
section Walk
variable (read : Machine → Word → Option Byte) (b : Contents) (size : Word) (Inv : Machine → Prop)
  (agree : ∀ s, Inv s → ∀ o, Within size o → read s o = some (b o))
  (kept : ∀ s s' i, Inv s → i < b.phnum → b.word (b.header i) = blackPtLoad →
    (roundReads read s (b.segmentAt (b.header i))).result = some (s',true) → Inv s')
include agree

theorem header_reads (s : Machine) (o : Word) (inv : Inv s) (inside : HeaderInside b size o) :
    Only (Within size) (loadSegmentReads read s o) := by
  refine (loadSegment_within read b size s (agree s inv) o).mpr ⟨inside.1,fun load => ?_⟩
  exact ⟨(inside.2 load).1,round_within read size s _ (inside.2 load).2⟩

/-- The rounds of the loop, when the number of headers is inside. -/
def loopRound (fuel i : Nat) (s : Machine) : Traced Word (Machine × Bool) :=
  if i < b.phnum then loadSegmentReads read s (b.header i) >>= fun loaded =>
    if loaded.2 then loadSegmentsReads read (b.word 28) fuel (i + 1) loaded.1 else pure (loaded.1,false)
  else pure (s,true)

theorem loop_round (s : Machine) (i fuel : Nat) (inv : Inv s) (long : 46 ≤ size.toNat) :
    (Only (Within size) (loadSegmentsReads read (b.word 28) (fuel + 1) i s) ↔
      Only (Within size) (loopRound read b fuel i s)) ∧
    (loadSegmentsReads read (b.word 28) (fuel + 1) i s).result = (loopRound read b fuel i s).result := by
  have counted := readHalf_gives read b size s (agree s inv) 44
  have count : (44 : Word).toNat + 2 ≤ size.toNat := long
  rw [loadSegmentsReads,bind_within _ _ _ _ counted,bind_value _ _ _ _ counted _ count]
  exact ⟨and_iff_right count,rfl⟩

include kept

/-- A completed round of the loop that has read inside had its header inside, and keeps the buffer. -/
theorem header_source (s s' : Machine) (i : Nat) (inv : Inv s) (more : i < b.phnum)
    (only : Only (Within size) (loadSegmentReads read s (b.header i)))
    (done : (loadSegmentReads read s (b.header i)).result = some (s',true)) :
    HeaderInside b size (b.header i) ∧ Inv s' := by
  obtain ⟨first,rest⟩ := (loadSegment_within read b size s (agree s inv) _).mp only
  rw [loadSegment_value read b size s (agree s inv) _ first fun load => (rest load).1] at done
  by_cases load : b.word (b.header i) = blackPtLoad
  · rw [if_pos load] at done
    obtain ⟨fields,round⟩ := rest load
    exact ⟨⟨first,fun _ => ⟨fields,round_source read size s s' _ round done⟩⟩,kept s s' i inv more load done⟩
  · rw [if_neg load] at done
    cases done
    exact ⟨⟨first,fun here => absurd here load⟩,inv⟩

/-- Headers inside are read inside, however far the loop comes. -/
theorem loop_inside (long : 46 ≤ size.toNat) (k : Nat) : ∀ (i fuel : Nat) (s : Machine), i + k = b.phnum → k < fuel →
    Inv s → (∀ j, i ≤ j → j < b.phnum → HeaderInside b size (b.header j)) →
    Only (Within size) (loadSegmentsReads read (b.word 28) fuel i s) := by
  induction k with
  | zero =>
    intro i fuel s total enough inv _
    obtain ⟨fuel,rfl⟩ : ∃ m, fuel = m + 1 := ⟨fuel - 1,by omega⟩
    rw [(loop_round read b size Inv agree s i fuel inv long).1,loopRound,if_neg (by omega)]
    exact only_pure _ _
  | succ k ih =>
    intro i fuel s total enough inv inside
    obtain ⟨fuel,rfl⟩ : ∃ m, fuel = m + 1 := ⟨fuel - 1,by omega⟩
    have more : i < b.phnum := by omega
    have first := header_reads read b size Inv agree s _ inv (inside i (Nat.le_refl i) more)
    rw [(loop_round read b size Inv agree s i fuel inv long).1,loopRound,if_pos more]
    refine (only_bind _ _ _).mpr ⟨first,fun loaded result => ?_⟩
    obtain ⟨s₁,flag⟩ := loaded
    cases flag with
    | false => exact only_pure _ _
    | true =>
      have inv₁ := (header_source read b size Inv agree kept s s₁ i inv more first result).2
      exact ih (i + 1) fuel s₁ (by omega) (by omega) inv₁ fun j low high => inside j (by omega) high

/-- A completed loop that has read inside had its headers inside. -/
theorem loop_source (long : 46 ≤ size.toNat) (s' : Machine) (k : Nat) : ∀ (i fuel : Nat) (s : Machine),
    i + k = b.phnum → k < fuel → Inv s → Only (Within size) (loadSegmentsReads read (b.word 28) fuel i s) →
    (loadSegmentsReads read (b.word 28) fuel i s).result = some (s',true) →
    ∀ j, i ≤ j → j < b.phnum → HeaderInside b size (b.header j) := by
  induction k with
  | zero =>
    intro i fuel s total enough inv only done j low high
    omega
  | succ k ih =>
    intro i fuel s total enough inv only done j low high
    obtain ⟨fuel,rfl⟩ : ∃ m, fuel = m + 1 := ⟨fuel - 1,by omega⟩
    have more : i < b.phnum := by omega
    obtain ⟨reads,value⟩ := loop_round read b size Inv agree s i fuel inv long
    rw [reads,loopRound,if_pos more] at only
    rw [value,loopRound,if_pos more,result_bind] at done
    obtain ⟨first,rest⟩ := (only_bind _ _ _).mp only
    obtain ⟨⟨s₁,flag⟩,result,done⟩ := Option.bind_eq_some_iff.mp done
    cases flag with
    | false => cases done
    | true =>
      obtain ⟨here,inv₁⟩ := header_source read b size Inv agree kept s s₁ i inv more first result
      by_cases same : j = i
      · rw [same]
        exact here
      · exact ih (i + 1) fuel s₁ (by omega) (by omega) inv₁ (rest _ result) done j (by omega) high

end Walk

/-- What the reads of an image say, and what is said of them: a validation stays inside exactly if the fields it comes
to are inside, and a load does if all that a whole load reads is; a load that completes or that the validation ends does
so only then. -/
structure ReadsOnly (read : Machine → Word → Option Byte) (s : Machine) (b : Contents) (size : Word) : Prop where
  validate : Only (Within size) (validateReads read s) ↔ ValidateInside b size
  load : ImageInside b size → Only (Within size) (loadReads read s)
  completed : (¬Valid b ∨ ∃ s' e, (loadReads read s).result = some (s',e) ∧ e ≠ 0) →
    Only (Within size) (loadReads read s) → ImageInside b size

section Load
variable (read : Machine → Word → Option Byte) (b : Contents) (size : Word) (Inv : Machine → Prop)
  (agree : ∀ s, Inv s → ∀ o, Within size o → read s o = some (b o))
  (kept : ∀ s s' i, Inv s → i < b.phnum → b.word (b.header i) = blackPtLoad →
    (roundReads read s (b.segmentAt (b.header i))).result = some (s',true) → Inv s')
include agree

/-- What a load does after the validation of a valid image. -/
def loadRest (s : Machine) : Traced Word (Machine × Word) :=
  loadSegmentsReads read (b.word 28) (2^16) 0 s >>= fun loaded =>
    if loaded.2 then readWord read loaded.1 24 >>= fun entry => pure (loaded.1,entry) else pure (loaded.1,0)

theorem load_valid (s : Machine) (inv : Inv s) (valid : Valid b) (fields : ValidateInside b size) :
    (Only (Within size) (loadReads read s) ↔ 32 ≤ size.toNat ∧ Only (Within size) (loadRest read b s)) ∧
      (32 ≤ size.toNat → (loadReads read s).result = (loadRest read b s).result) := by
  have header := validate_within read b size s (agree s inv)
  have offset := readWord_gives read b size s (agree s inv) 28
  obtain ⟨code,result,good⟩ := validate_value read b size s (agree s inv) fields
  have gives : Gives size (validateReads read s) (ValidateInside b size) code := ⟨header,fun _ => result⟩
  have ends : ¬code ≠ 0 := not_not_intro (good.mpr valid)
  rw [loadReads,bind_within _ _ _ _ gives,bind_value _ _ _ _ gives _ fields,if_neg ends,and_iff_right fields]
  exact ⟨bind_within _ _ _ _ offset _,fun place => bind_value _ _ _ _ offset _ place⟩

theorem load_invalid (s : Machine) (inv : Inv s) (invalid : ¬Valid b) (fields : ValidateInside b size) :
    Only (Within size) (loadReads read s) := by
  obtain ⟨code,result,good⟩ := validate_value read b size s (agree s inv) fields
  have gives : Gives size (validateReads read s) (ValidateInside b size) code :=
    ⟨validate_within read b size s (agree s inv),fun _ => result⟩
  rw [loadReads,bind_within _ _ _ _ gives,if_pos fun zero => invalid (good.mp zero)]
  exact ⟨fields,only_pure _ _⟩

theorem load_fields (s : Machine) (inv : Inv s) (only : Only (Within size) (loadReads read s)) : ValidateInside b size :=
  (validate_within read b size s (agree s inv)).mp ((only_bind _ _ _).mp only).1

/-- The loop of a load that reads inside begins with the number of headers, and the first header of an image that has
one is read, whatever becomes of the load. -/
theorem first_header (s : Machine) (inv : Inv s) (only : Only (Within size) (loadRest read b s)) :
    46 ≤ size.toNat ∧ (0 < b.phnum → (b.header 0).toNat + 4 ≤ size.toNat) := by
  have rounds := ((only_bind _ _ _).mp only).1
  have counted := readHalf_gives read b size s (agree s inv) 44
  rw [show (2^16 : Nat) = 65535 + 1 from rfl,loadSegmentsReads,bind_within _ _ _ _ counted] at rounds
  obtain ⟨count,rounds⟩ := rounds
  refine ⟨count,fun some_ => ?_⟩
  have next : 0 < (b.half 44).toNat := some_
  rw [if_pos next] at rounds
  exact ((loadSegment_within read b size s (agree s inv) _).mp ((only_bind _ _ _).mp rounds).1).1

include kept

theorem load_inside (s : Machine) (inv : Inv s) (inside : ImageInside b size) : Only (Within size) (loadReads read s) := by
  obtain ⟨fields,rest⟩ := inside
  by_cases valid : Valid b
  · obtain ⟨long,headers⟩ := rest valid
    have few : b.phnum < 2^16 := (b.half 44).isLt
    have last : (24 : Word).toNat + 4 ≤ size.toNat := le_trans (by decide) long
    have rounds := loop_inside read b size Inv agree kept long b.phnum 0 (2^16) s (Nat.zero_add _) few inv
      fun j _ below => headers j below
    refine (load_valid read b size Inv agree s inv valid fields).1.mpr ⟨by omega,?_⟩
    refine (only_bind _ _ _).mpr ⟨rounds,fun loaded _ => ?_⟩
    rw [only_ite,only_bind]
    exact ⟨fun _ => ⟨word_inside read size loaded.1 24 last,fun entry _ => only_pure _ _⟩,fun _ => only_pure _ _⟩
  · exact load_invalid read b size Inv agree s inv valid fields

/-- A completed load that has read inside had all that it reads inside. -/
theorem load_source (s s' : Machine) (e : Word) (inv : Inv s) (valid : Valid b)
    (only : Only (Within size) (loadReads read s)) (loaded : (loadReads read s).result = some (s',e))
    (completed : e ≠ 0) : 46 ≤ size.toNat ∧ ∀ i < b.phnum, HeaderInside b size (b.header i) := by
  have few : b.phnum < 2^16 := (b.half 44).isLt
  obtain ⟨reads,value⟩ := load_valid read b size Inv agree s inv valid (load_fields read b size Inv agree s inv only)
  obtain ⟨place,rest⟩ := reads.mp only
  have long := (first_header read b size Inv agree s inv rest).1
  rw [value place,loadRest,result_bind] at loaded
  obtain ⟨⟨s₁,flag⟩,rounds,loaded⟩ := Option.bind_eq_some_iff.mp loaded
  cases flag with
  | false =>
    cases loaded
    exact absurd rfl completed
  | true =>
    refine ⟨long,fun i below => ?_⟩
    exact loop_source read b size Inv agree kept long s₁ b.phnum 0 (2^16) s (Nat.zero_add _) few inv
      ((only_bind _ _ _).mp rest).1 rounds i (Nat.zero_le i) below

theorem reads_only (s : Machine) (inv : Inv s) : ReadsOnly read s b size := by
  refine ⟨validate_within read b size s (agree s inv),load_inside read b size Inv agree kept s inv,fun ends only => ?_⟩
  refine ⟨load_fields read b size Inv agree s inv only,fun valid => ?_⟩
  obtain ⟨s',e,loaded,completed⟩ := ends.resolve_left (not_not_intro valid)
  exact load_source read b size Inv agree kept s s' e inv valid only loaded completed

end Load

/-! Over a buffer in memory the results are those of the loader. -/
section Memory
variable (data : Word)

theorem half_memory (s : Machine) (o : Word) : (readHalf (inMemory data) s o).result = loadHalf s (data + o) := by
  simp only [readHalf,loadHalf,result_bind,readByte,result_logged,inMemory,Option.bind_eq_bind,result_pure,
    BitVec.add_assoc]
  rfl

theorem word_memory (s : Machine) (o : Word) : (readWord (inMemory data) s o).result = loadWord s (data + o) := by
  simp only [readWord,loadWord,result_bind,half_memory,Option.bind_eq_bind,result_pure,BitVec.add_assoc]
  rfl

theorem validate_memory (s : Machine) : (validateReads (inMemory data) s).result = blackElfValidate s data := by
  have start : data + 0 = data := BitVec.add_zero data
  simp only [validateReads,blackElfValidate,result_bind,word_memory,half_memory,readByte,result_logged,inMemory,
    Option.bind_eq_bind,apply_ite Traced.result,result_pure,start]
  rfl

theorem memcpy_memory (n : Nat) (s : Machine) (d src : Word) :
    (memcpyReads (inMemory data) n s d src).result = memcpyLoop n s d (data + src) := by
  induction n generalizing s d src with
  | zero => rfl
  | succ n ih =>
    simp only [memcpyReads,memcpyLoop,result_bind,readByte,result_logged,result_quiet,inMemory,Option.bind_eq_bind,ih,
      BitVec.add_assoc]

theorem round_memory (s : Machine) (x : Segment) :
    (roundReads (inMemory data) s x).result = (roundTraced s data x).result := by
  rw [roundReads,roundTraced,result_bind,result_bind,result_quiet,mapSegment_result]
  refine congrArg _ (funext fun mapped => ?_)
  obtain ⟨s₁,flag⟩ := mapped
  cases flag with
  | false => rfl
  | true =>
    have copied : (copyFileReads (inMemory data) s₁ x.vaddr x.offset x.filesz).result =
        (copyFileTraced s₁ x.vaddr (data + x.offset) x.filesz).result := by
      rw [copyFileReads,copyFileTraced,apply_ite Traced.result,apply_ite Traced.result,memcpy_memory,memcpy_result]
    simp only [Bool.not_true,Bool.false_eq_true,if_false,result_bind,result_quiet,copied,zeroRest_result]

theorem loadSegment_memory (s : Machine) (o : Word) :
    (loadSegmentReads (inMemory data) s o).result = loadSegment s data (data + o) := by
  rw [← loadSegment_result]
  simp only [loadSegmentReads,loadSegmentTraced,result_bind,result_quiet,word_memory]
  refine congrArg _ (funext fun type => ?_)
  by_cases other : type ≠ blackPtLoad
  · rw [if_pos other,if_pos other]
  · rw [if_neg other,if_neg other]
    simp only [result_bind,result_quiet,word_memory,← BitVec.add_assoc,round_memory,roundTraced,Segment.pageFlags]

theorem loadSegments_memory (phdrs : Word) (fuel : Nat) : ∀ (i : Nat) (s : Machine),
    (loadSegmentsReads (inMemory data) phdrs fuel i s).result = loadSegments data (data + phdrs) fuel i s := by
  induction fuel with
  | zero => exact fun i s => rfl
  | succ fuel ih =>
    intro i s
    rw [loadSegmentsReads,loadSegments,result_bind,half_memory,Option.bind_eq_bind]
    refine congrArg _ (funext fun phnum => ?_)
    by_cases more : i < phnum.toNat
    · rw [if_pos more,if_pos more,result_bind,loadSegment_memory,BitVec.add_assoc,Option.bind_eq_bind]
      refine congrArg _ (funext fun loaded => ?_)
      obtain ⟨s₁,flag⟩ := loaded
      cases flag with
      | false => rfl
      | true => exact ih (i + 1) s₁
    · rw [if_neg more,if_neg more]
      rfl

theorem load_memory (s : Machine) (size : Word) : (loadReads (inMemory data) s).result = blackElfLoad s data size := by
  rw [loadReads,blackElfLoad,result_bind,validate_memory,Option.bind_eq_bind]
  refine congrArg _ (funext fun code => ?_)
  by_cases bad : code ≠ 0
  · rw [if_pos bad,if_pos bad]
    rfl
  · rw [if_neg bad,if_neg bad,result_bind,word_memory,Option.bind_eq_bind]
    refine congrArg _ (funext fun phoff => ?_)
    rw [result_bind,loadSegments_memory,Option.bind_eq_bind]
    refine congrArg _ (funext fun loaded => ?_)
    obtain ⟨s₁,flag⟩ := loaded
    cases flag with
    | false => rfl
    | true =>
      have entry := word_memory data s₁ 24
      change (readWord (inMemory data) s₁ 24 >>= fun entry => pure (s₁,entry)).result = _
      rw [result_bind,entry]
      rfl

end Memory

/-- The segments that the headers describe end below the kernel. -/
def Low (b : Contents) : Prop := ∀ i < b.phnum, b.word (b.header i) = blackPtLoad → (b.segmentAt (b.header i)).Below

section Kernel
variable (own : Nat → Owner) (s : Machine) (data size : Word) (b : Contents)

theorem lies_agree (lies : Lies own s data size fun i => b (word i)) (o : Word) (inside : Within size o) :
    inMemory data s o = some (b o) := by
  have held := load_image own s data size _ lies o.toNat inside
  rw [toNat_word] at held
  exact held

/-- A round for a segment below the kernel leaves the image in kernel memory as it is. -/
theorem round_lies (s' : Machine) (space : Space own s) (lies : Lies own s data size fun i => b (word i)) (x : Segment)
    (below : x.Below) (done : (roundReads (inMemory data) s x).result = some (s',true)) :
    ∃ own', Space own' s' ∧ Lies own' s' data size fun i => b (word i) := by
  rw [round_memory] at done
  obtain ⟨⟨own',kept⟩,_⟩ := round_keeps own s s' space data x (round_below s data x below) true done
  exact ⟨own',kept.space,lies_kept own own' s s' kept data size _ lies⟩

end Kernel

/-- The loader reads inside a buffer that nothing writes exactly as far as its fields say, and inside an image in kernel
memory whose segments end below the kernel. -/
theorem reads_image (b : Contents) (size : Word) :
    (∀ s, ReadsOnly (fixed b) s b size) ∧
    ∀ data s, (validateReads (inMemory data) s).result = blackElfValidate s data ∧
      (loadReads (inMemory data) s).result = blackElfLoad s data size ∧
      ∀ own, Space own s → Lies own s data size (fun i => b (word i)) → Low b → ReadsOnly (inMemory data) s b size := by
  refine ⟨fun s => ?_,fun data s => ⟨validate_memory data s,load_memory data s size,fun own space lies low => ?_⟩⟩
  · exact reads_only (fixed b) b size (fun _ => True) (fun _ _ _ _ => rfl) (fun _ _ _ _ _ _ _ => trivial) s trivial
  · refine reads_only (inMemory data) b size
      (fun s => ∃ own, Space own s ∧ Lies own s data size fun i => b (word i)) ?_ ?_ s ⟨own,space,lies⟩
    · intro s inv o inside
      obtain ⟨own,_,lies⟩ := inv
      exact lies_agree own s data size b lies o inside
    · intro s s' i inv more load done
      obtain ⟨own,space,lies⟩ := inv
      exact round_lies own s data size b s' space lies _ (low i more load) done

/-- The bytes of an image, by their offsets. -/
def contents (img : Image) : Contents := fun o => img o.toNat

theorem reads_image_sharing : Low (contents sharing) ∧ ReadsOnly (inMemory 0xC0000000) (boot sharing) (contents sharing) 124 ∧
    Only (Within 124) (loadReads (inMemory 0xC0000000) (boot sharing)) := by
  have lies : Lies bootOwner (boot sharing) 0xC0000000 124 fun i => contents sharing (word i) := by
    intro i inside
    have same : (word i).toNat = i := word_toNat i (lt_trans inside (by decide))
    change Kernel bootOwner (boot sharing) (0xC0000000 + word i) (sharing (word i).toNat)
    rw [same]
    exact boot_lies sharing 124 (by decide) i inside
  have two : (contents sharing).phnum = 2 := by decide
  have low : Low (contents sharing) := by
    intro i more _
    obtain rfl | rfl : i = 0 ∨ i = 1 := by omega
    · exact ⟨.inr (by decide),.inr (by decide)⟩
    · exact ⟨.inr (by decide),.inr (by decide)⟩
  have reads := ((reads_image (contents sharing) 124).2 0xC0000000 (boot sharing)).2.2 bootOwner (boot_space sharing) lies low
  refine ⟨low,reads,reads.load ⟨⟨by decide,fun _ => ⟨by decide,fun _ => by decide⟩⟩,fun _ => ⟨by decide,fun i more => ?_⟩⟩⟩
  have first : (contents sharing).header 0 = 52 := by decide
  have second : (contents sharing).header 1 = 84 := by decide
  obtain rfl | rfl : i = 0 ∨ i = 1 := by omega
  · rw [first]
    exact ⟨by decide,fun _ => ⟨by simp,.inr (by decide)⟩⟩
  · rw [second]
    exact ⟨by decide,fun _ => ⟨by simp,.inr (by decide)⟩⟩

/-- An image of 52 bytes with its program header behind its end, which the load reads. -/
theorem load_reads_outside : Space bootOwner (boot reaching) ∧ Lies bootOwner (boot reaching) 0xC0000000 52 reaching ∧
    ∃ o ∈ (loadReads (inMemory 0xC0000000) (boot reaching)).events, 52 ≤ o.toNat := by
  have lies := boot_lies reaching 52 (by decide)
  refine ⟨boot_space reaching,lies,?_⟩
  by_contra absent
  have only : Only (Within 52) (loadReads (inMemory 0xC0000000) (boot reaching)) := by
    intro o member
    by_contra outside
    exact absent ⟨o,member,Nat.not_lt.mp outside⟩
  have agree : ∀ s, s = boot reaching → ∀ o, Within 52 o → inMemory 0xC0000000 s o = some (contents reaching o) := by
    rintro s rfl o inside
    have held := load_image bootOwner (boot reaching) 0xC0000000 52 reaching lies o.toNat inside
    rw [toNat_word] at held
    exact held
  have valid : Valid (contents reaching) := ⟨by decide,by decide,by decide,by decide⟩
  have fields := load_fields (inMemory 0xC0000000) (contents reaching) 52 (· = boot reaching) agree _ rfl only
  have rest := (load_valid (inMemory 0xC0000000) (contents reaching) 52 (· = boot reaching) agree _ rfl valid fields).1.mp only
  have inside := (first_header (inMemory 0xC0000000) (contents reaching) 52 (· = boot reaching) agree _ rfl rest.2).2
    (by decide)
  exact absurd inside (by decide)

end BlackOS.Elf
