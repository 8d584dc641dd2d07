import BlackOS.VmmCow
import BlackOS.PmmRun
import Mathlib.Tactic.IntervalCases

/-! `_start` of `boot/multiboot.asm`: the page tables that the boot code makes, its way to the higher half, and the
arguments of `black_kernel_main`. -/
namespace BlackOS.Boot
open BlackOS.Library.Ram BlackOS.Library.Paging BlackOS.Library.Bitmap BlackOS.Vmm
open BlackOS.Pmm (kernelVma)

/-- The addresses of the labels of the file. -/
structure Labels where
  directory : Word
  identity : Word
  kernel : Word
  kernel2 : Word
  infoPtr : Word
  magic : Word
  stackTop : Word

/-- A loop that stores `eax` at `edi` and goes on to the next word, as often as `ecx` says. -/
def storeLoop (step : Word) : Nat → Memory → Word → Word → Memory
  | 0,m,_,_ => m
  | n+1,m,eax,edi => storeLoop step n (write32 m edi eax) (eax + step) (edi + 4)

/-- `rep stosd`. -/
def repStosd (ecx : Nat) (m : Memory) (eax edi : Word) : Memory := storeLoop 0 ecx m eax edi

/-- The loops `.black_fill_identity`, `.black_fill_kernel` and `.black_fill_kernel2`. -/
def blackFill (ecx : Nat) (m : Memory) (eax edi : Word) : Memory := storeLoop 4096 ecx m eax edi

/-- From `_start` to the load of `cr3`. -/
def start (l : Labels) (eax ebx : Word) (m : Memory) : Memory :=
  let m := write32 m l.infoPtr ebx
  let m := write32 m l.magic eax
  let m := repStosd 1024 m 0 l.directory
  let m := blackFill 1024 m 0x00000003 l.identity
  let m := blackFill 1024 m 0x00000003 l.kernel
  let m := blackFill 1024 m 0x00400003 l.kernel2
  let m := write32 m (l.directory + 0 * 4) (l.identity ||| 0x03)
  let m := write32 m (l.directory + 768 * 4) (l.kernel ||| 0x03)
  write32 m (l.directory + (768 + 1) * 4) (l.kernel2 ||| 0x03)

/-- From `black_higher_half` to the call of `black_kernel_main`, with paging. -/
def blackHigherHalf (l : Labels) (s : Machine) : Option Machine := do
  let s ← s.store32 (l.directory + kernelVma) 0
  let magic ← s.load32 (l.magic + kernelVma)
  let s ← s.store32 (l.stackTop - 4) magic
  let info ← s.load32 (l.infoPtr + kernelVma)
  s.store32 (l.stackTop - 8) info

theorem first_value (eax step : Word) : eax + step * word 0 = eax := by
  simp [word]

theorem next_value (eax step : Word) (k : Nat) : eax + step * word (k + 1) = eax + step + step * word k := by
  have one : step * word 1 = step := BitVec.mul_one step
  rw [Nat.add_comm,← word_add,BitVec.mul_add,one,BitVec.add_assoc]

section Loops
variable (step : Word) (n : Nat) (m : Memory) (eax edi : Word) (room : edi.toNat + 4 * n ≤ 2^32)
include room

theorem storeLoop_sameOutside : SameOutside edi.toNat (edi.toNat + 4 * n) m (storeLoop step n m eax edi) := by
  induction n generalizing m eax edi with
  | zero => exact SameOutside.refl _ _ m
  | succ n ih =>
    by_cases last : n = 0
    · subst last
      exact write32_sameOutside m edi eax (by omega)
    · have next : (edi + 4).toNat = edi.toNat + 4 := by bv_omega
      have first := write32_sameOutside m edi eax (by omega)
      have rest := ih (write32 m edi eax) (eax + step) (edi + 4) (by omega)
      exact (first.widen (by omega) (by omega)).trans (rest.widen (by omega) (by omega))

theorem storeLoop_read (k : Nat) (inside : k < n) :
    read32 (storeLoop step n m eax edi) (edi + word (4 * k)) = eax + step * word k := by
  induction n generalizing m eax edi k with
  | zero => cases inside
  | succ n ih =>
    by_cases last : n = 0
    · subst last
      have here : k = 0 := by omega
      have place : edi + word 0 = edi := BitVec.add_zero edi
      rw [here,Nat.mul_zero,place,first_value]
      exact read32_write32 m edi eax
    · have next : (edi + 4).toNat = edi.toNat + 4 := by bv_omega
      cases k with
      | zero =>
        have place : edi + word 0 = edi := BitVec.add_zero edi
        have outside := storeLoop_sameOutside step n (write32 m edi eax) (eax + step) (edi + 4) (by omega)
        rw [Nat.mul_zero,place,first_value]
        exact (outside.read32 edi (by omega) (.inl (by omega))).trans (read32_write32 m edi eax)
      | succ k =>
        have place : edi + word (4 * (k + 1)) = edi + 4 + word (4 * k) := by
          rw [Nat.mul_succ,Nat.add_comm,← word_add,← BitVec.add_assoc]
          rfl
        rw [place,next_value]
        exact ih (write32 m edi eax) (eax + step) (edi + 4) (by omega) k (by omega)

end Loops

def Labels.tables (l : Labels) : List Word := [l.directory,l.identity,l.kernel,l.kernel2]

/-- The word does not cross the end of its page, and lies outside the tables in the first eight megabytes. -/
structure Outside (l : Labels) (a : Word) : Prop where
  inside : a.toNat % 4096 ≤ 4092
  low : frame a < 2048
  apart : frame a ∉ l.tables.map frame

/-- Where the linker puts the labels: the tables on frames of their own, and the top of the stack in the kernel half. -/
structure Placed (l : Labels) : Prop where
  aligned : ∀ t ∈ l.tables, t.toNat % 4096 = 0
  low : ∀ t ∈ l.tables, frame t < 2048
  apart : (l.tables.map frame).Nodup
  info : Outside l l.infoPtr
  magic : Outside l l.magic
  words : l.infoPtr.toNat + 4 ≤ l.magic.toNat ∨ l.magic.toNat + 4 ≤ l.infoPtr.toNat
  stack : kernelVma.toNat + 8 ≤ l.stackTop.toNat ∧ l.stackTop.toNat ≤ kernelVma.toNat + 2^23
  first : Outside l (l.stackTop - 4 - kernelVma)
  second : Outside l (l.stackTop - 8 - kernelVma)
  saved : ∀ a ∈ [l.infoPtr,l.magic], a.toNat + 4 ≤ l.stackTop.toNat - 8 - kernelVma.toNat ∨
    l.stackTop.toNat - kernelVma.toNat ≤ a.toNat

/-- The page tables, with the first entry of the directory. -/
structure Tables (m : Memory) (l : Labels) (first : Word) : Prop where
  directory : ∀ i < 1024, entry m (frame l.directory) i =
    if i = 768 then word (frame l.kernel * 4096 + 3) else if i = 769 then word (frame l.kernel2 * 4096 + 3)
    else if i = 0 then first else 0
  identity : ∀ j < 1024, entry m (frame l.identity) j = word (j * 4096 + 3)
  kernel : ∀ j < 1024, entry m (frame l.kernel) j = word (j * 4096 + 3)
  kernel2 : ∀ j < 1024, entry m (frame l.kernel2) j = word ((1024 + j) * 4096 + 3)

section Fills
variable (m : Memory) (t : Word) (aligned : t.toNat % 4096 = 0)
include aligned

theorem aligned_address (k : Nat) (inside : k < 4096) : t + word k = address (frame t) k := by
  have bound := t.isLt
  apply BitVec.eq_of_toNat_eq
  rw [address_toNat _ _ (frame_lt t) inside,BitVec.toNat_add,word_toNat _ (by omega),frame]
  omega

theorem fill_entry (step eax : Word) (k : Nat) (inside : k < 1024) :
    entry (storeLoop step 1024 m eax t) (frame t) k = eax + step * word k := by
  have bound := t.isLt
  rw [entry,← aligned_address t aligned _ (by omega)]
  exact storeLoop_read step 1024 m eax t (by omega) k inside

theorem fill_other (step eax : Word) (f k : Nat) (low : f < 2^20) (inside : k < 1024) (apart : f ≠ frame t) :
    entry (storeLoop step 1024 m eax t) f k = entry m f k := by
  have bound := t.isLt
  refine entry_congr m _ f k low inside fun a within => ?_
  refine storeLoop_sameOutside step 1024 m eax t (by omega) a ?_
  unfold frame at apart
  omega

theorem set_eq (i : Nat) (inside : i < 1024) (e : Word) :
    write32 m (t + word (4 * i)) e = setEntry m (frame t) i e := by
  rw [aligned_address t aligned _ (by omega)]
  rfl

theorem or_flags : t ||| 3 = word (frame t * 4096 + 3) := by
  have bound := t.isLt
  have whole : t.toNat = frame t <<< 12 := by
    rw [Nat.shiftLeft_eq,frame]
    omega
  apply BitVec.eq_of_toNat_eq
  rw [BitVec.toNat_or,whole,word_toNat _ (by unfold frame; omega)]
  refine (Nat.shiftLeft_add_eq_or_of_lt (by decide) _).symm.trans ?_
  rw [Nat.shiftLeft_eq]
  rfl

end Fills

theorem lower_value (k : Nat) : (3 : Word) + 4096 * word k = word (k * 4096 + 3) := by
  have product : (4096 : Word) * word k = word (k * 4096) := by
    rw [Nat.mul_comm]
    exact BitVec.ofNat_mul_ofNat 4096 k
  rw [product,BitVec.add_comm]
  exact word_add _ _

theorem upper_value (k : Nat) : (0x00400003 : Word) + 4096 * word k = word ((1024 + k) * 4096 + 3) := by
  have split : (0x00400003 : Word) = word (1024 * 4096) + 3 := by decide
  have sum : 1024 * 4096 + (k * 4096 + 3) = (1024 + k) * 4096 + 3 := by omega
  rw [split,BitVec.add_assoc,lower_value,word_add,sum]

section Start
variable (l : Labels) (placed : Placed l) (eax ebx : Word) (m : Memory)
include placed

theorem tables_apart : frame l.directory ≠ frame l.identity ∧ frame l.directory ≠ frame l.kernel ∧
    frame l.directory ≠ frame l.kernel2 ∧ frame l.identity ≠ frame l.kernel ∧ frame l.identity ≠ frame l.kernel2 ∧
    frame l.kernel ≠ frame l.kernel2 := by
  simpa [Labels.tables,and_assoc] using placed.apart

/-- The tables are made from an order of stores to their frames. -/
theorem start_shape : start l eax ebx m =
    setEntry (setEntry (setEntry (blackFill 1024 (blackFill 1024 (blackFill 1024 (repStosd 1024
      (write32 (write32 m l.infoPtr ebx) l.magic eax) 0 l.directory) 3 l.identity) 3 l.kernel) 0x00400003 l.kernel2)
      (frame l.directory) 0 (word (frame l.identity * 4096 + 3))) (frame l.directory) 768 (word (frame l.kernel * 4096 + 3)))
      (frame l.directory) 769 (word (frame l.kernel2 * 4096 + 3)) := by
  have aligned := placed.aligned
  simp only [Labels.tables,List.forall_mem_cons] at aligned
  obtain ⟨directory,identity,kernel,kernel2,_⟩ := aligned
  rw [← set_eq _ l.directory directory 0 (by decide),← set_eq _ l.directory directory 768 (by decide),
    ← set_eq _ l.directory directory 769 (by decide),← or_flags _ identity,← or_flags _ kernel,← or_flags _ kernel2]
  rfl

/-- Outside the tables only the two words of the boot loader are stored. -/
theorem start_keeps (a : Word) (apart : frame a ∉ l.tables.map frame) :
    start l eax ebx m a = write32 (write32 m l.infoPtr ebx) l.magic eax a := by
  have aligned := placed.aligned
  simp only [Labels.tables,List.forall_mem_cons] at aligned
  obtain ⟨directory,identity,kernel,kernel2,_⟩ := aligned
  simp only [Labels.tables,List.map_cons,List.map_nil,List.mem_cons,List.not_mem_nil,or_false,not_or] at apart
  obtain ⟨notDirectory,notIdentity,notKernel,notKernel2⟩ := apart
  have set (mem : Memory) (i : Nat) (e : Word) (small : i < 1024) : setEntry mem (frame l.directory) i e a = mem a :=
    setEntry_elsewhere mem _ i e a (frame_lt _) small notDirectory
  have fill (mem : Memory) (step v t : Word) (page : t.toNat % 4096 = 0) (other : frame a ≠ frame t) :
      storeLoop step 1024 mem v t a = mem a := by
    have bound := t.isLt
    refine storeLoop_sameOutside step 1024 mem v t (by omega) a ?_
    unfold frame at other
    omega
  rw [start_shape l placed,set _ 769 _ (by decide),set _ 768 _ (by decide),set _ 0 _ (by decide)]
  refine (fill _ _ _ l.kernel2 kernel2 notKernel2).trans ((fill _ _ _ l.kernel kernel notKernel).trans ?_)
  exact (fill _ _ _ l.identity identity notIdentity).trans (fill _ _ _ l.directory directory notDirectory)

omit placed in
theorem outside_room (a : Word) (outside : Outside l a) : a.toNat + 4 ≤ 2^32 := by
  have inside := outside.inside
  have bound := a.isLt
  omega

theorem start_read (a : Word) (outside : Outside l a) :
    read32 (start l eax ebx m) a = read32 (write32 (write32 m l.infoPtr ebx) l.magic eax) a := by
  refine read32_congr _ _ a (outside_room l a outside) fun x low high => start_keeps l placed eax ebx m x ?_
  have inside := outside.inside
  have same : frame x = frame a := by
    unfold frame
    omega
  rw [same]
  exact outside.apart

theorem start_magic : read32 (start l eax ebx m) l.magic = eax := by
  rw [start_read l placed eax ebx m l.magic placed.magic]
  exact read32_write32 _ _ _

theorem start_info : read32 (start l eax ebx m) l.infoPtr = ebx := by
  have room := outside_room l l.magic placed.magic
  have words := placed.words
  rw [start_read l placed eax ebx m l.infoPtr placed.info]
  have outside := write32_sameOutside (write32 m l.infoPtr ebx) l.magic eax room
  rw [outside.read32 l.infoPtr (outside_room l l.infoPtr placed.info) (by omega)]
  exact read32_write32 _ _ _

theorem start_tables : Tables (start l eax ebx m) l (word (frame l.identity * 4096 + 3)) := by
  obtain ⟨di,dk,dk2,ik,ik2,kk2⟩ := tables_apart l placed
  have aligned := placed.aligned
  simp only [Labels.tables,List.forall_mem_cons] at aligned
  obtain ⟨directory,identity,kernel,kernel2,_⟩ := aligned
  let cleared := repStosd 1024 (write32 (write32 m l.infoPtr ebx) l.magic eax) 0 l.directory
  let first := blackFill 1024 cleared 3 l.identity
  let second := blackFill 1024 first 3 l.kernel
  let third := blackFill 1024 second 0x00400003 l.kernel2
  have shape : start l eax ebx m = setEntry (setEntry (setEntry third (frame l.directory) 0 (word (frame l.identity * 4096 + 3)))
      (frame l.directory) 768 (word (frame l.kernel * 4096 + 3))) (frame l.directory) 769 (word (frame l.kernel2 * 4096 + 3)) :=
    start_shape l placed eax ebx m
  have zero (i : Nat) (inside : i < 1024) : entry third (frame l.directory) i = 0 := by
    have clear : entry cleared (frame l.directory) i = 0 + 0 * word i := fill_entry _ l.directory directory 0 0 i inside
    have value : (0 : Word) + 0 * word i = 0 := by
      simp
    rw [← value,← clear]
    refine (fill_other second l.kernel2 kernel2 _ _ _ i (frame_lt _) inside dk2).trans ?_
    refine (fill_other first l.kernel kernel _ _ _ i (frame_lt _) inside dk).trans ?_
    exact fill_other cleared l.identity identity _ _ _ i (frame_lt _) inside di
  have kept (t : Word) (other : frame t ≠ frame l.directory) (j : Nat) (inside : j < 1024) :
      entry (start l eax ebx m) (frame t) j = entry third (frame t) j := by
    rw [shape]
    have apart (mem : Memory) (i : Nat) (small : i < 1024) (e : Word) :
        entry (setEntry mem (frame l.directory) i e) (frame t) j = entry mem (frame t) j :=
      entry_setEntry_other mem _ i _ j e (frame_lt _) small (frame_lt _) inside (.inl other)
    rw [apart _ 769 (by decide),apart _ 768 (by decide),apart _ 0 (by decide)]
  refine ⟨fun i inside => ?_,fun j inside => ?_,fun j inside => ?_,fun j inside => ?_⟩
  · have other (mem : Memory) (k : Nat) (small : k < 1024) (e : Word) (apart : i ≠ k) :
        entry (setEntry mem (frame l.directory) k e) (frame l.directory) i = entry mem (frame l.directory) i :=
      entry_setEntry_other mem _ k _ i e (frame_lt _) small (frame_lt _) inside (.inr apart)
    rw [shape]
    by_cases last : i = 769
    · rw [last]
      exact entry_setEntry _ _ _ _
    · rw [other _ 769 (by decide) _ last]
      by_cases middle : i = 768
      · rw [middle]
        exact entry_setEntry _ _ _ _
      · rw [other _ 768 (by decide) _ middle,if_neg middle,if_neg last]
        by_cases here : i = 0
        · rw [here]
          exact entry_setEntry _ _ _ _
        · rw [other _ 0 (by decide) _ here,if_neg here]
          exact zero i inside
  · rw [kept l.identity di.symm j inside,← lower_value]
    refine (fill_other second l.kernel2 kernel2 _ _ _ j (frame_lt _) inside ik2).trans ?_
    refine (fill_other first l.kernel kernel _ _ _ j (frame_lt _) inside ik).trans ?_
    exact fill_entry cleared l.identity identity _ _ j inside
  · rw [kept l.kernel dk.symm j inside,← lower_value]
    refine (fill_other second l.kernel2 kernel2 _ _ _ j (frame_lt _) inside kk2).trans ?_
    exact fill_entry first l.kernel kernel _ _ j inside
  · rw [kept l.kernel2 dk2.symm j inside,← upper_value]
    exact fill_entry second l.kernel2 kernel2 _ _ j inside

end Start

/-- A page that the tables map. -/
theorem translate_entry (l : Labels) (m : Memory) (v t : Word) (i f : Nat) (low : frame t < 2048) (small : f < 2048)
    (table : entry m (frame l.directory) i = word (frame t * 4096 + 3))
    (slot : entry m (frame t) (v.toNat / 4096 % 1024) = word (f * 4096 + 3)) (index : v.toNat / 2^22 = i) :
    translate m (frame l.directory) v = some (address f (v.toNat % 4096)) := by
  obtain ⟨there,same⟩ := boot_entry (frame t) low
  obtain ⟨mapped,place⟩ := boot_entry f small
  have found := translate_mapped m (frame l.directory) v (by rw [index,table]; exact there)
    (by rw [index,table,same,slot]; exact mapped)
  rw [index,table,same,slot,place] at found
  exact found

section Translation
variable (l : Labels) (placed : Placed l) (m : Memory) (first : Word) (tables : Tables m l first) (v : Word)
include placed tables

/-- The first eight megabytes are seen in the kernel half. -/
theorem translate_kernel (low : kernelVma.toNat ≤ v.toNat) (high : v.toNat < kernelVma.toNat + 2^23) :
    translate m (frame l.directory) v = some (v - kernelVma) := by
  have base : kernelVma.toNat = 0xC0000000 := rfl
  have place : (v - kernelVma).toNat = v.toNat - 0xC0000000 := by
    rw [← base]
    exact BitVec.toNat_sub_of_le low
  by_cases lower : v.toNat < 0xC0400000
  · have found := translate_entry l m v l.kernel 768 (v.toNat / 4096 % 1024) (placed.low _ (by simp [Labels.tables])) (by omega)
      (tables.directory 768 (by decide)) (tables.kernel _ (by omega)) (by omega)
    rw [found]
    congr 1
    apply BitVec.eq_of_toNat_eq
    rw [address_toNat _ _ (by omega) (by omega),place]
    omega
  · have found := translate_entry l m v l.kernel2 769 (1024 + v.toNat / 4096 % 1024) (placed.low _ (by simp [Labels.tables]))
      (by omega) (tables.directory 769 (by decide)) (tables.kernel2 _ (by omega)) (by omega)
    rw [found]
    congr 1
    apply BitVec.eq_of_toNat_eq
    rw [address_toNat _ _ (by omega) (by omega),place]
    omega

/-- As long as the first table is there, the first four megabytes are mapped to themselves. -/
theorem translate_identity (there : first = word (frame l.identity * 4096 + 3)) (low : v.toNat < 2^22) :
    translate m (frame l.directory) v = some v := by
  have found := translate_entry l m v l.identity 0 (v.toNat / 4096 % 1024) (placed.low _ (by simp [Labels.tables])) (by omega)
    ((tables.directory 0 (by decide)).trans there) (tables.identity _ (by omega)) (by omega)
  rw [found]
  congr 1
  apply BitVec.eq_of_toNat_eq
  rw [address_toNat _ _ (by omega) (by omega)]
  omega

omit placed in
theorem translate_unmapped (low : v.toNat < 2^22 → first = 0) (apart : v.toNat < kernelVma.toNat ∨ kernelVma.toNat + 2^23 ≤ v.toNat) :
    translate m (frame l.directory) v = none := by
  have bound := v.isLt
  have base : kernelVma.toNat = 0xC0000000 := rfl
  have table := tables.directory (v.toNat / 2^22) (by omega)
  have absent : entry m (frame l.directory) (v.toNat / 2^22) = 0 := by
    rw [table,if_neg (by omega),if_neg (by omega)]
    split
    · exact low (by omega)
    · rfl
  have clear : present 0 = false := rfl
  simp only [Library.Paging.translate,absent,clear,Bool.false_eq_true,if_false]

end Translation

section HigherHalf
variable (l : Labels) (placed : Placed l) (s : Machine) (root : s.dir = frame l.directory) (first : Word)
  (tables : Tables s.mem l first) (a : Word) (outside : Outside l a) (x : Word)
include placed root tables

theorem translate_lifted (low : frame a < 2048) : translate s.mem s.dir (a + kernelVma) = some a := by
  have base : kernelVma.toNat = 0xC0000000 := rfl
  have value : (a + kernelVma).toNat = a.toNat + 0xC0000000 := by
    unfold frame at low
    rw [BitVec.toNat_add,base]
    omega
  unfold frame at low
  rw [root,translate_kernel l placed s.mem first tables _ (by omega) (by omega)]
  exact congrArg some (BitVec.add_sub_cancel a kernelVma)

include outside

theorem load_lifted : s.load32 (a + kernelVma) = some (read32 s.mem a) := by
  rw [Machine.load32,translate_lifted l placed s root first tables a outside.low]
  rfl

theorem store_lifted : s.store32 (a + kernelVma) x = some {s with mem := write32 s.mem a x} := by
  rw [Machine.store32,translate_lifted l placed s root first tables a outside.low]
  rfl

omit placed root in
theorem tables_write : Tables (write32 s.mem a x) l first := by
  have room : a.toNat + 4 ≤ 2^32 := by
    have inside := outside.inside
    have bound := a.isLt
    omega
  have same (t : Word) (among : t ∈ l.tables) (i : Nat) (inside : i < 1024) :
      entry (write32 s.mem a x) (frame t) i = entry s.mem (frame t) i := by
    refine entry_congr _ _ _ _ (frame_lt t) inside fun b within => write32_sameOutside s.mem a x room b ?_
    have apart : frame a ≠ frame t := fun same => outside.apart (same ▸ List.mem_map_of_mem among)
    have fits := outside.inside
    unfold frame at apart within
    omega
  refine ⟨fun i inside => ?_,fun j inside => ?_,fun j inside => ?_,fun j inside => ?_⟩
  · rw [same l.directory (by simp [Labels.tables]) i inside,tables.directory i inside]
  · rw [same l.identity (by simp [Labels.tables]) j inside,tables.identity j inside]
  · rw [same l.kernel (by simp [Labels.tables]) j inside,tables.kernel j inside]
  · rw [same l.kernel2 (by simp [Labels.tables]) j inside,tables.kernel2 j inside]

end HigherHalf

/-- The first table is taken away. -/
theorem tables_cleared (l : Labels) (placed : Placed l) (m : Memory) (e : Word) (there : Tables m l e) : Tables (setEntry m (frame l.directory) 0 0) l 0 := by
  obtain ⟨di,dk,dk2,_⟩ := tables_apart l placed
  have other (t : Word) (apart : frame l.directory ≠ frame t) (j : Nat) (inside : j < 1024) :
      entry (setEntry m (frame l.directory) 0 0) (frame t) j = entry m (frame t) j :=
    entry_setEntry_other m _ 0 _ j 0 (frame_lt _) (by decide) (frame_lt _) inside (.inl apart.symm)
  refine ⟨fun i inside => ?_,fun j inside => ?_,fun j inside => ?_,fun j inside => ?_⟩
  · by_cases here : i = 0
    · rw [here]
      exact entry_setEntry m _ 0 0
    · rw [entry_setEntry_other m _ 0 _ i 0 (frame_lt _) (by decide) (frame_lt _) inside (.inr here),there.directory i inside,
        if_neg here,if_neg here]
  · rw [other l.identity di j inside,there.identity j inside]
  · rw [other l.kernel dk j inside,there.kernel j inside]
  · rw [other l.kernel2 dk2 j inside,there.kernel2 j inside]

section Boot
variable (l : Labels) (placed : Placed l) (eax ebx : Word) (m : Memory) (pmm : Pmm.State)

/-- A virtual address of the kernel half that `_start` maps. -/
def InKernel (v : Word) : Prop := kernelVma.toNat ≤ v.toNat ∧ v.toNat < kernelVma.toNat + 2^23

instance (v : Word) : Decidable (InKernel v) := inferInstanceAs (Decidable (_ ∧ _))

include placed

/-- With the first table the boot code sees itself before the jump, and what is in the higher half after it. -/
theorem start_translates (v : Word) : translate (start l eax ebx m) (frame l.directory) v =
    if v.toNat < 2^22 then some v else if InKernel v then some (v - kernelVma) else none := by
  have tables := start_tables l placed eax ebx m
  by_cases low : v.toNat < 2^22
  · rw [if_pos low]
    exact translate_identity l placed _ _ tables v rfl low
  · rw [if_neg low]
    by_cases kernel : InKernel v
    · rw [if_pos kernel]
      exact translate_kernel l placed _ _ tables v kernel.1 kernel.2
    · rw [if_neg kernel]
      refine translate_unmapped l _ _ tables v (fun below => absurd below low) ?_
      unfold InKernel at kernel
      omega

theorem higherHalf_runs : ∃ s, blackHigherHalf l ⟨start l eax ebx m,l.directory,pmm⟩ = some s ∧ s.cr3 = l.directory ∧
    s.pmm = pmm ∧ Tables s.mem l 0 ∧ s.load32 (l.stackTop - 4) = some eax ∧ s.load32 (l.stackTop - 8) = some ebx := by
  let low := l.stackTop - 4 - kernelVma
  let lower := l.stackTop - 8 - kernelVma
  have base : kernelVma.toNat = 0xC0000000 := rfl
  obtain ⟨above,below⟩ := placed.stack
  have lowAt : low.toNat = l.stackTop.toNat - 4 - 0xC0000000 := by
    simp only [low]
    bv_omega
  have lowerAt : lower.toNat = l.stackTop.toNat - 8 - 0xC0000000 := by
    simp only [lower]
    bv_omega
  have lowUp : l.stackTop - 4 = low + kernelVma := (BitVec.sub_add_cancel _ _).symm
  have lowerUp : l.stackTop - 8 = lower + kernelVma := (BitVec.sub_add_cancel _ _).symm
  have saved := placed.saved
  simp only [List.forall_mem_cons] at saved
  obtain ⟨savedInfo,savedMagic,_⟩ := saved
  have roomInfo := outside_room l l.infoPtr placed.info
  have roomMagic := outside_room l l.magic placed.magic
  let m0 := start l eax ebx m
  let m1 := setEntry m0 (frame l.directory) 0 0
  let m2 := write32 m1 low eax
  let m3 := write32 m2 lower ebx
  have tables1 : Tables m1 l 0 := tables_cleared l placed m0 _ (start_tables l placed eax ebx m)
  have tables2 : Tables m2 l 0 := tables_write l ⟨m1,l.directory,pmm⟩ 0 tables1 low placed.first eax
  have tables3 : Tables m3 l 0 := tables_write l ⟨m2,l.directory,pmm⟩ 0 tables2 lower placed.second ebx
  have clears (a : Word) (outside : Outside l a) : read32 m1 a = read32 m0 a := by
    refine read32_congr _ _ a (outside_room l a outside) fun x low high => ?_
    refine setEntry_elsewhere m0 _ 0 0 x (frame_lt _) (by decide) fun same => outside.apart ?_
    have inside := outside.inside
    have here : frame a = frame l.directory := by
      unfold frame at same ⊢
      omega
    simp [here,Labels.tables]
  have magic : read32 m1 l.magic = eax := (clears _ placed.magic).trans (start_magic l placed eax ebx m)
  have info : read32 m2 l.infoPtr = ebx := by
    have outside := write32_sameOutside m1 low eax (outside_room l low placed.first)
    rw [outside.read32 l.infoPtr roomInfo (by omega)]
    exact (clears _ placed.info).trans (start_info l placed eax ebx m)
  have first : read32 m3 low = eax := by
    have outside := write32_sameOutside m2 lower ebx (outside_room l lower placed.second)
    rw [outside.read32 low (outside_room l low placed.first) (by omega)]
    exact read32_write32 _ _ _
  have clear : (⟨m0,l.directory,pmm⟩ : Machine).store32 (l.directory + kernelVma) 0 = some ⟨m1,l.directory,pmm⟩ := by
    have directory : write32 m0 l.directory 0 = m1 := by
      have place : l.directory + word (4 * 0) = l.directory := BitVec.add_zero _
      have same := set_eq m0 l.directory (placed.aligned _ (by simp [Labels.tables])) 0 (by decide) 0
      rw [place] at same
      exact same
    rw [Machine.store32,translate_lifted l placed ⟨m0,l.directory,pmm⟩ rfl _ (start_tables l placed eax ebx m) l.directory
      (placed.low _ (by simp [Labels.tables])),← directory]
    rfl
  refine ⟨⟨m3,l.directory,pmm⟩,?_,rfl,rfl,tables3,?_,?_⟩
  · simp only [blackHigherHalf,Option.bind_eq_bind]
    rw [clear,Option.bind_some,load_lifted l placed ⟨m1,l.directory,pmm⟩ rfl 0 tables1 l.magic placed.magic,magic,
      Option.bind_some,lowUp,store_lifted l placed ⟨m1,l.directory,pmm⟩ rfl 0 tables1 low placed.first eax,Option.bind_some,
      load_lifted l placed ⟨m2,l.directory,pmm⟩ rfl 0 tables2 l.infoPtr placed.info,info,Option.bind_some,lowerUp,
      store_lifted l placed ⟨m2,l.directory,pmm⟩ rfl 0 tables2 lower placed.second ebx]
  · rw [lowUp,load_lifted l placed ⟨m3,l.directory,pmm⟩ rfl 0 tables3 low placed.first,first]
  · rw [lowerUp,load_lifted l placed ⟨m3,l.directory,pmm⟩ rfl 0 tables3 lower placed.second]
    exact congrArg some (read32_write32 _ _ _)

omit placed in
theorem cleared_translates (placed : Placed l) (s : Memory) (tables : Tables s l 0) (v : Word) :
    translate s (frame l.directory) v = if InKernel v then some (v - kernelVma) else none := by
  by_cases kernel : InKernel v
  · rw [if_pos kernel]
    exact translate_kernel l placed s 0 tables v kernel.1 kernel.2
  · rw [if_neg kernel]
    refine translate_unmapped l s 0 tables v (fun _ => rfl) ?_
    unfold InKernel at kernel
    omega

end Boot

/-- A page end at or above the end of the kernel. -/
theorem align_le (kernelEnd : Word) (small : kernelEnd.toNat < 2^30) :
    kernelEnd.toNat ≤ (Heap.blackAlign kernelEnd Pmm.blackPageSize).toNat := by
  have rounded (x : Word) : x &&& 0xFFFFF000#32 = (x >>> 12) <<< 12 := by
    ext i inside
    interval_cases i <;> simp
  have sum : (kernelEnd + 4095).toNat = kernelEnd.toNat + 4095 := by
    simp only [BitVec.toNat_add,BitVec.reduceToNat]
    omega
  have masked : Heap.blackAlign kernelEnd Pmm.blackPageSize = ((kernelEnd + 4095) >>> 12) <<< 12 := rounded _
  rw [masked,BitVec.toNat_shiftLeft,BitVec.toNat_ushiftRight,sum,Nat.shiftRight_eq_div_pow,Nat.shiftLeft_eq]
  omega

theorem boot_taken (m : Memory) (mboot : Pmm.MultibootInfo) (kernelEnd : Word) (pmm : Pmm.State)
    (inited : Pmm.Booted m mboot kernelEnd pmm) (t : Word) (covered : t.toNat < kernelEnd.toNat) :
    isSet pmm.bitmap (frame t) = true := by
  by_contra off
  have clear := (Pmm.booted_clear inited (frame t) (by simpa using off)).2.2
  have above := align_le kernelEnd inited.kernel.2
  unfold frame at clear
  omega

/-- The boot code sees the first four megabytes at their own addresses until it is in the higher half; there it takes
this view away, calls `black_kernel_main` with the two words of the boot loader, and leaves what the memory manager takes
for granted. -/
theorem boot_maps (l : Labels) (placed : Placed l) (eax ebx : Word) (m : Memory) (unset : Pmm.State) :
    (∀ v, translate (start l eax ebx m) (frame l.directory) v =
      if v.toNat < 2^22 then some v else if InKernel v then some (v - kernelVma) else none) ∧
    ∃ s, blackHigherHalf l ⟨start l eax ebx m,l.directory,unset⟩ = some s ∧
      (∀ v, translate s.mem s.dir v = if InKernel v then some (v - kernelVma) else none) ∧
      s.load32 (l.stackTop - 8) = some ebx ∧ s.load32 (l.stackTop - 4) = some eax ∧
      ∀ mboot kernelEnd pmm, (∀ t ∈ l.tables, t.toNat < kernelEnd.toNat) → Pmm.Booted s.mem mboot kernelEnd pmm →
        Booted {s with pmm := pmm} (frame l.kernel) (frame l.kernel2) := by
  obtain ⟨s,runs,root,_,tables,magic,info⟩ := higherHalf_runs l placed eax ebx m unset
  have dir : s.dir = frame l.directory := congrArg frame root
  refine ⟨start_translates l placed eax ebx m,s,runs,fun v => ?_,info,magic,fun mboot kernelEnd pmm covered inited => ?_⟩
  · rw [dir]
    exact cleared_translates l placed s.mem tables v
  · obtain ⟨di,dk,dk2,_,_,kk2⟩ := tables_apart l placed
    have taken (t : Word) (among : t ∈ l.tables) : isSet pmm.bitmap (frame t) = true :=
      boot_taken s.mem mboot kernelEnd pmm inited t (covered t among)
    have small (t : Word) (among : t ∈ l.tables) : frame t < 2048 := placed.low t among
    have aligned := placed.aligned
    simp only [Labels.tables,List.forall_mem_cons] at aligned
    have whole : s.cr3 = word (s.dir * 4096) := by
      have page := aligned.1
      have bound := l.directory.isLt
      rw [root,dir]
      apply BitVec.eq_of_toNat_eq
      rw [word_toNat _ (by unfold frame; omega),frame]
      omega
    refine ⟨whole,fun i inside => ?_,tables.kernel,tables.kernel2,?_,?_,?_⟩
    · have table := tables.directory i inside
      rw [← dir,ite_self] at table
      exact table
    · exact ⟨dir ▸ small _ (by simp [Labels.tables]),small _ (by simp [Labels.tables]),small _ (by simp [Labels.tables])⟩
    · exact ⟨kk2,dir ▸ dk.symm,dir ▸ dk2.symm⟩
    · exact ⟨Pmm.booted_zero inited,dir ▸ taken _ (by simp [Labels.tables]),taken _ (by simp [Labels.tables]),
        taken _ (by simp [Labels.tables])⟩

/-- A place of the labels as the linker's script gives it. -/
def linked : Labels := ⟨0x10A000,0x10B000,0x10C000,0x10D000,0x101100,0x101104,0xC0140000⟩

theorem linked_placed : Placed linked := by
  have base : kernelVma = 0xC0000000 := rfl
  refine ⟨?_,?_,?_,⟨?_,?_,?_⟩,⟨?_,?_,?_⟩,?_,?_,⟨?_,?_,?_⟩,⟨?_,?_,?_⟩,?_⟩ <;> simp [linked,Labels.tables,frame,base]

theorem boot_maps_linked : ∃ s,
    blackHigherHalf linked ⟨start linked 0x2BADB002 0x9500 fun _ => 0,0x10A000,Pmm.unset⟩ = some s ∧
      translate s.mem s.dir 0x9500 = none ∧ translate s.mem s.dir 0xC0009500 = some 0x9500 ∧
      s.load32 0xC013FFF8 = some 0x9500 := by
  obtain ⟨_,s,runs,sees,info,_⟩ := boot_maps linked linked_placed 0x2BADB002 0x9500 (fun _ => 0) Pmm.unset
  refine ⟨s,runs,?_,?_,info⟩
  · rw [sees]
    rfl
  · rw [sees]
    rfl

end BlackOS.Boot
