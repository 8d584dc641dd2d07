import BlackOS.Vmm
import BlackOS.PmmFrames

/-! The kernel's accesses to its page tables, resolved to the frames they reach through
the recursive directory entry, and what mapping one page does to the tables. -/
namespace BlackOS.Vmm
open BlackOS.Library.Ram BlackOS.Library.Paging BlackOS.Library.Bitmap
open BlackOS.Pmm (maxFrames Takes)

theorem present_or (a b : Word) : present (a ||| b) = (present a || present b) := BitVec.getLsbD_or

theorem frame_or (a b : Word) (small : b.toNat < 4096) : frame (a ||| b) = frame a := by
  have high : b.toNat >>> 12 = 0 := by
    rw [Nat.shiftRight_eq_div_pow]
    omega
  have joined : (a.toNat ||| b.toNat) >>> 12 = a.toNat >>> 12 := by
    rw [Nat.shiftRight_or_distrib,high,Nat.or_zero]
  rw [Nat.shiftRight_eq_div_pow,Nat.shiftRight_eq_div_pow] at joined
  rw [frame,frame,BitVec.toNat_or]
  exact joined

theorem frame_and (a mask : Word) (upper : mask.toNat >>> 12 = 2^20 - 1) : frame (a &&& mask) = frame a := by
  have bound := a.isLt
  have masked : (a.toNat &&& mask.toNat) >>> 12 = a.toNat >>> 12 := by
    rw [Nat.shiftRight_and_distrib,upper,Nat.and_two_pow_sub_one_eq_mod,Nat.shiftRight_eq_div_pow]
    exact Nat.mod_eq_of_lt (by omega)
  rw [Nat.shiftRight_eq_div_pow,Nat.shiftRight_eq_div_pow] at masked
  rw [frame,frame,BitVec.toNat_and]
  exact masked

theorem frame_masked (a : Word) : frame (a &&& 0xFFFFF000) = frame a := frame_and a _ (by decide)

theorem and_small (a mask : Word) (small : mask.toNat < 4096) : (a &&& mask).toNat < 4096 := by
  rw [BitVec.toNat_and]
  exact lt_of_le_of_lt Nat.and_le_right small

theorem absent_iff (e : Word) : e &&& pagePresent = 0 ↔ present e = false := by
  have bit : e &&& 1#32 = BitVec.setWidth 32 (BitVec.ofBool (e.getLsbD 0)) :=
    BitVec.and_one_eq_setWidth_ofBool_getLsbD
  have mask : pagePresent = 1#32 := rfl
  rw [mask,bit,present]
  cases e.getLsbD 0
  · exact iff_of_true rfl rfl
  · exact iff_of_false (by decide) (by decide)

theorem present_ne (e : Word) (mapped : present e = true) : ¬ e &&& pagePresent = 0 := by
  rw [absent_iff,mapped]
  decide

theorem directory_index (v : Word) : ((v >>> 22) &&& 0x3FF).toNat = v.toNat / 2^22 := by
  have bound := v.isLt
  rw [BitVec.toNat_and,BitVec.toNat_ushiftRight,Nat.shiftRight_eq_div_pow]
  exact (Nat.and_two_pow_sub_one_eq_mod _ 10).trans (Nat.mod_eq_of_lt (by omega))

theorem table_index (v : Word) : ((v >>> 12) &&& 0x3FF).toNat = v.toNat / 4096 % 1024 := by
  rw [BitVec.toNat_and,BitVec.toNat_ushiftRight,Nat.shiftRight_eq_div_pow]
  exact Nat.and_two_pow_sub_one_eq_mod _ 10

theorem window_address (i j : Word) (low : i.toNat < 1024) (inside : j.toNat < 1024) :
    blackGetPt i + j * 4 = word (0xFFC00000 + i.toNat * 4096 + 4 * j.toNat) := by
  apply BitVec.eq_of_toNat_eq
  rw [word_toNat _ (by omega)]
  simp only [blackGetPt,pageSize]
  bv_omega

theorem directory_address (i : Word) (low : i.toNat < 1024) :
    blackGetPd + i * 4 = word (0xFFC00000 + 1023 * 4096 + 4 * i.toNat) := by
  apply BitVec.eq_of_toNat_eq
  rw [word_toNat _ (by omega)]
  simp only [blackGetPd]
  bv_omega

section Accesses
variable (s : Machine) (recursive : Recursive s.mem s.dir) (i : Word) (low : i.toNat < 1024)
include recursive low

theorem translate_directory :
    translate s.mem s.dir (blackGetPd + i * 4) = some (address s.dir (4 * i.toNat)) := by
  rw [directory_address i low,translate_window s.mem s.dir 1023 _ recursive (by decide) recursive.1
    (by omega),recursive.2]

theorem load_directory : s.load32 (blackGetPd + i * 4) = some (entry s.mem s.dir i.toNat) := by
  rw [Machine.load32,translate_directory s recursive i low]
  rfl

theorem store_directory (e : Word) :
    s.store32 (blackGetPd + i * 4) e = some {s with mem := setEntry s.mem s.dir i.toNat e} := by
  rw [Machine.store32,translate_directory s recursive i low]
  rfl

theorem store_table (j e : Word) (inside : j.toNat < 1024)
    (table : present (entry s.mem s.dir i.toNat) = true) :
    s.store32 (blackGetPt i + j * 4) e =
      some {s with mem := setEntry s.mem (frame (entry s.mem s.dir i.toNat)) j.toNat e} := by
  rw [Machine.store32,window_address i j low inside,
    translate_window s.mem s.dir i.toNat _ recursive low table (by omega)]
  rfl

end Accesses

def zeroed (m : Memory) (f n : Nat) : Memory :=
  fun a => if a.toNat / 4096 = f ∧ a.toNat % 4096 < n then 0 else m a

theorem zeroed_step (m : Memory) (f n : Nat) (low : f < 2^20) (inside : n < 4096) :
    write8 (zeroed m f n) (address f n) 0 = zeroed m f (n + 1) := by
  have place := address_toNat f n low inside
  funext a
  unfold write8 zeroed
  by_cases here : a = address f n
  · have value : a.toNat = f * 4096 + n := by rw [here,place]
    rw [if_pos here,if_pos ⟨by omega,by omega⟩]
  · have other : a.toNat ≠ f * 4096 + n := by
      intro same
      exact here (BitVec.eq_of_toNat_eq (same.trans place.symm))
    rw [if_neg here]
    by_cases cleared : a.toNat / 4096 = f ∧ a.toNat % 4096 < n
    · rw [if_pos cleared,if_pos ⟨cleared.1,by omega⟩]
    · rw [if_neg cleared,if_neg (by omega)]

theorem zeroed_none (m : Memory) (f : Nat) : zeroed m f 0 = m := by
  funext a
  exact if_neg (by omega)

section Clearing
variable (s : Machine) (recursive : Recursive s.mem s.dir) (i : Word) (low : i.toNat < 1024)
  (table : present (entry s.mem s.dir i.toNat) = true) (f : Nat)
  (named : frame (entry s.mem s.dir i.toNat) = f) (apart : f ≠ s.dir)

include apart in
theorem zeroed_directory (n k : Nat) (inside : k < 1024) :
    entry (zeroed s.mem f n) s.dir k = entry s.mem s.dir k := by
  refine entry_congr _ _ _ _ (frame_lt _) inside fun a here => if_neg fun cleared => ?_
  exact apart (cleared.1.symm.trans here)

include recursive low table named apart

/-- One turn of the loop. The directory is as before, so that the window has not moved. -/
theorem clear_byte (n : Nat) (inside : n < 4096) :
    Machine.store8 {s with mem := zeroed s.mem f n} (word (0xFFC00000 + i.toNat * 4096 + n)) 0 =
      some {s with mem := zeroed s.mem f (n + 1)} := by
  have lowFrame : f < 2^20 := by
    rw [← named]
    exact frame_lt _
  have kept : Recursive (zeroed s.mem f n) s.dir :=
    recursive.kept rfl (zeroed_directory s f apart n 1023 (by decide))
  have same := zeroed_directory s f apart n i.toNat low
  have window := translate_window (zeroed s.mem f n) s.dir i.toNat n kept low
    (by rw [same]; exact table) inside
  rw [same,named] at window
  have found : translate (zeroed s.mem f n) (Machine.dir {s with mem := zeroed s.mem f n})
      (word (0xFFC00000 + i.toNat * 4096 + n)) = some (address f n) := window
  unfold Machine.store8
  simp only [found,Option.map_some,zeroed_step s.mem f n lowFrame inside]

theorem clear_loop (left : Nat) : ∀ n, left + n = 4096 →
    memsetLoop 0 left {s with mem := zeroed s.mem f n} (word (0xFFC00000 + i.toNat * 4096 + n)) =
      some {s with mem := zeroed s.mem f 4096} := by
  induction left with
  | zero =>
    intro n total
    rw [← total,Nat.zero_add]
    rfl
  | succ left ih =>
    intro n total
    have next : word (0xFFC00000 + i.toNat * 4096 + n) + 1 =
        word (0xFFC00000 + i.toNat * 4096 + (n + 1)) := word_add _ 1
    rw [memsetLoop,clear_byte s recursive i low table f named apart n (by omega),Option.bind_eq_bind,
      Option.bind_some,next]
    exact ih (n + 1) (by omega)

/-- Clearing a page table through its window clears its frame. -/
theorem clear_table : memset s (blackGetPt i) 0 pageSize = some {s with mem := zeroed s.mem f 4096} := by
  have start : blackGetPt i = word (0xFFC00000 + i.toNat * 4096 + 0) := by
    apply BitVec.eq_of_toNat_eq
    rw [word_toNat _ (by omega)]
    simp only [blackGetPt,pageSize]
    bv_omega
  have whole := clear_loop s recursive i low table f named apart 4096 0 rfl
  rw [zeroed_none] at whole
  rw [start]
  exact whole

end Clearing

/-- What mapping a page does to the tables: slot `j` of the table `t` behind directory
slot `i` names frame `f`, and nothing else is mapped or unmapped. The table is the one
that was there, or a frame that was free. -/
structure Links (s s' : Machine) (i j t f : Nat) : Prop where
  cr3 : s'.cr3 = s.cr3
  directory : present (entry s'.mem s.dir i) = true ∧ frame (entry s'.mem s.dir i) = t
  slot : present (entry s'.mem t j) = true ∧ frame (entry s'.mem t j) = f
  otherTables : ∀ k < 1024, k ≠ i → entry s'.mem s.dir k = entry s.mem s.dir k
  elsewhere : ∀ a : Word, a.toNat / 4096 ≠ s.dir → a.toNat / 4096 ≠ t → s'.mem a = s.mem a
  origin :
    (present (entry s.mem s.dir i) = true ∧ frame (entry s.mem s.dir i) = t ∧ s'.pmm = s.pmm ∧
      ∀ k < 1024, k ≠ j → entry s'.mem t k = entry s.mem t k) ∨
    (present (entry s.mem s.dir i) = false ∧ t < maxFrames ∧ isSet s.pmm.bitmap t = false ∧
      Takes s.pmm s'.pmm t 1 ∧ ∀ k < 1024, k ≠ j → entry s'.mem t k = 0)

/-- A table for a directory slot is there, and the rest is as before. -/
structure Tabled (s s' : Machine) (i t : Nat) : Prop where
  cr3 : s'.cr3 = s.cr3
  directory : present (entry s'.mem s.dir i) = true ∧ frame (entry s'.mem s.dir i) = t
  otherTables : ∀ k < 1024, k ≠ i → entry s'.mem s.dir k = entry s.mem s.dir k
  elsewhere : ∀ a : Word, a.toNat / 4096 ≠ s.dir → a.toNat / 4096 ≠ t → s'.mem a = s.mem a
  origin :
    (present (entry s.mem s.dir i) = true ∧ frame (entry s.mem s.dir i) = t ∧ s'.pmm = s.pmm ∧
      ∀ k < 1024, entry s'.mem t k = entry s.mem t k) ∨
    (present (entry s.mem s.dir i) = false ∧ t < maxFrames ∧ isSet s.pmm.bitmap t = false ∧
      Takes s.pmm s'.pmm t 1 ∧ ∀ k < 1024, entry s'.mem t k = 0)

theorem frame_address (f : Nat) (low : f < maxFrames) : frame (word f * Pmm.blackPageSize) = f := by
  rw [frame,(Pmm.address_frame f low).2]
  omega

theorem frame_flagged (f : Nat) (low : f < maxFrames) (flags : Word) (small : flags.toNat < 4096) :
    frame (word f * Pmm.blackPageSize ||| flags) = f := by
  rw [frame_or _ _ small,frame_address f low]

theorem frame_address_ne (f : Nat) (low : f < maxFrames) (positive : f ≠ 0) :
    word f * Pmm.blackPageSize ≠ 0 := by
  intro same
  have value := (Pmm.address_frame f low).2
  rw [same] at value
  have zero : (0 : Word).toNat = 0 := rfl
  omega

theorem table_entry (t : Nat) (low : t < maxFrames) (flags : Word) :
    frame (word t * Pmm.blackPageSize ||| pagePresent ||| pageWrite ||| (flags &&& pageUser)) = t ∧
      present (word t * Pmm.blackPageSize ||| pagePresent ||| pageWrite ||| (flags &&& pageUser)) = true := by
  refine ⟨?_,?_⟩
  · rw [frame_or _ _ (and_small _ _ (by decide)),frame_or _ _ (by decide),
      frame_flagged t low _ (by decide)]
  · rw [present_or,present_or,present_or]
    have bit : present pagePresent = true := by decide
    rw [bit,Bool.or_true,Bool.true_or,Bool.true_or]

section Mapping
variable (s : Machine) (recursive : Recursive s.mem s.dir) (i flags : Word) (low : i.toNat < 1023)
include recursive low

theorem ensureTable_present (mapped : present (entry s.mem s.dir i.toNat) = true)
    (apart : frame (entry s.mem s.dir i.toNat) ≠ s.dir) :
    ∃ s', ensureTable s i flags = some (s',true) ∧
      Tabled s s' i.toNat (frame (entry s.mem s.dir i.toNat)) := by
  have lowDir : s.dir < 2^20 := frame_lt _
  have read := load_directory s recursive i (by omega)
  have visible := present_ne _ mapped
  by_cases user : flags &&& pageUser ≠ 0
  · refine ⟨{s with mem := setEntry s.mem s.dir i.toNat (entry s.mem s.dir i.toNat ||| pageUser)},?_,?_⟩
    · have store := store_directory s recursive i (by omega) (entry s.mem s.dir i.toNat ||| pageUser)
      simp only [ensureTable,read,Option.bind_eq_bind,Option.bind_some,if_neg visible,if_pos user,store]
      rfl
    · have bits := frame_or (entry s.mem s.dir i.toNat) pageUser (by decide)
      have stays := present_or (entry s.mem s.dir i.toNat) pageUser
      rw [mapped,Bool.true_or] at stays
      refine ⟨rfl,?_,?_,?_,Or.inl ⟨mapped,rfl,rfl,?_⟩⟩
      · rw [entry_setEntry]
        exact ⟨stays,bits⟩
      · intro k inside other
        exact entry_setEntry_other _ _ _ _ _ _ lowDir (by omega) lowDir inside (.inr other)
      · intro a notDir notTable
        exact setEntry_elsewhere _ _ _ _ a lowDir (by omega) notDir
      · intro k inside
        exact entry_setEntry_other _ _ _ _ _ _ lowDir (by omega) (frame_lt _) inside (.inl apart)
  · refine ⟨s,?_,rfl,⟨mapped,rfl⟩,fun k inside other => rfl,fun a notDir notTable => rfl,
      Or.inl ⟨mapped,rfl,rfl,fun k inside => rfl⟩⟩
    simp only [ensureTable,read,Option.bind_eq_bind,Option.bind_some,if_neg visible,if_neg user]
    rfl

theorem ensureTable_full (absent : present (entry s.mem s.dir i.toNat) = false)
    (full : Pmm.blackPmmAllocFrame s.pmm = (s.pmm,0)) : ensureTable s i flags = some (s,false) := by
  have read := load_directory s recursive i (by omega)
  have hidden : entry s.mem s.dir i.toNat &&& pagePresent = 0 := (absent_iff _).mpr absent
  simp only [ensureTable,read,Option.bind_eq_bind,Option.bind_some,if_pos hidden,full]
  rfl

theorem ensureTable_fresh (absent : present (entry s.mem s.dir i.toNat) = false) (t : Nat)
    (pmm : Pmm.State) (got : Pmm.blackPmmAllocFrame s.pmm = (pmm,word t * Pmm.blackPageSize))
    (lowFrame : t < maxFrames) (free : isSet s.pmm.bitmap t = false) (takes : Takes s.pmm pmm t 1)
    (positive : t ≠ 0) (apart : t ≠ s.dir) :
    ∃ s', ensureTable s i flags = some (s',true) ∧ Tabled s s' i.toNat t := by
  have most : maxFrames = 262144 := rfl
  have lowDir : s.dir < 2^20 := frame_lt _
  have lowTable : t < 2^20 := by omega
  have read := load_directory s recursive i (by omega)
  have hidden : entry s.mem s.dir i.toNat &&& pagePresent = 0 := (absent_iff _).mpr absent
  have found := frame_address_ne t lowFrame positive
  generalize named : word t * Pmm.blackPageSize ||| pagePresent ||| pageWrite ||| (flags &&& pageUser) = e
  have here := table_entry t lowFrame flags
  rw [named] at here
  have others : ∀ k < 1024, k ≠ i.toNat → entry (setEntry s.mem s.dir i.toNat e) s.dir k =
      entry s.mem s.dir k := by
    intro k inside other
    exact entry_setEntry_other _ _ _ _ _ _ lowDir (by omega) lowDir inside (.inr other)
  have kept : Recursive (setEntry s.mem s.dir i.toNat e) s.dir :=
    recursive.kept rfl (others 1023 (by decide) (by omega))
  have store : Machine.store32 {s with pmm := pmm} (blackGetPd + i * 4) e =
      some ⟨setEntry s.mem s.dir i.toNat e,s.cr3,pmm⟩ :=
    store_directory {s with pmm := pmm} recursive i (by omega) e
  have cleared : memset ⟨setEntry s.mem s.dir i.toNat e,s.cr3,pmm⟩ (blackGetPt i) 0 pageSize =
      some ⟨zeroed (setEntry s.mem s.dir i.toNat e) t 4096,s.cr3,pmm⟩ := by
    have slot : entry (setEntry s.mem s.dir i.toNat e) s.dir i.toNat = e := entry_setEntry _ _ _ _
    exact clear_table ⟨setEntry s.mem s.dir i.toNat e,s.cr3,pmm⟩ kept i (by omega)
      ((congrArg present slot).trans here.2) t ((congrArg frame slot).trans here.1) apart
  have unzeroed : ∀ a : Word, a.toNat / 4096 ≠ t →
      zeroed (setEntry s.mem s.dir i.toNat e) t 4096 a = setEntry s.mem s.dir i.toNat e a :=
    fun a other => if_neg fun inside => other inside.1
  have directory : ∀ k < 1024, entry (zeroed (setEntry s.mem s.dir i.toNat e) t 4096) s.dir k =
      entry (setEntry s.mem s.dir i.toNat e) s.dir k :=
    fun k inside => entry_congr _ _ _ _ lowDir inside fun a frame => unzeroed a (by omega)
  refine ⟨⟨zeroed (setEntry s.mem s.dir i.toNat e) t 4096,s.cr3,pmm⟩,?_,rfl,?_,?_,?_,
    Or.inr ⟨absent,lowFrame,free,takes,?_⟩⟩
  · simp only [ensureTable,read,Option.bind_eq_bind,Option.bind_some,if_pos hidden,got,if_neg found,named]
    rw [store,Option.bind_some,cleared]
    rfl
  · rw [directory _ (by omega),entry_setEntry]
    exact ⟨here.2,here.1⟩
  · intro k inside other
    rw [directory k inside]
    exact others k inside other
  · intro a notDir notTable
    exact (unzeroed a notTable).trans (setEntry_elsewhere _ _ _ _ a lowDir (by omega) notDir)
  · intro k inside
    exact entry_zero _ _ _ lowTable inside fun a frame =>
      if_pos ⟨frame,Nat.mod_lt _ (by decide)⟩

end Mapping

theorem tabled_links (s s' : Machine) (i j t : Nat) (e : Word)
    (low : i < 1023) (inside : j < 1024) (apart : t ≠ s.dir) (tabled : Tabled s s' i t)
    (mapped : present e = true) :
    Links s {s' with mem := setEntry s'.mem t j e} i j t (frame e) := by
  have lowDir : s.dir < 2^20 := frame_lt _
  have lowTable : t < 2^20 := by
    rw [← tabled.directory.2]
    exact frame_lt _
  have directory : ∀ k < 1024, entry (setEntry s'.mem t j e) s.dir k = entry s'.mem s.dir k :=
    fun k bound => entry_setEntry_other _ _ _ _ _ _ lowTable inside lowDir bound (.inl apart.symm)
  have table : ∀ k < 1024, k ≠ j → entry (setEntry s'.mem t j e) t k = entry s'.mem t k :=
    fun k bound other => entry_setEntry_other _ _ _ _ _ _ lowTable inside lowTable bound (.inr other)
  refine ⟨tabled.cr3,?_,?_,?_,?_,?_⟩
  · rw [directory i (by omega)]
    exact tabled.directory
  · rw [entry_setEntry]
    exact ⟨mapped,rfl⟩
  · intro k bound other
    rw [directory k bound]
    exact tabled.otherTables k bound other
  · intro a notDir notTable
    exact (setEntry_elsewhere _ _ _ _ a lowTable inside notTable).trans
      (tabled.elsewhere a notDir notTable)
  · rcases tabled.origin with ⟨was,same,pmm,kept⟩ | ⟨was,fits,free,takes,empty⟩
    · exact Or.inl ⟨was,same,pmm,fun k bound other => (table k bound other).trans (kept k bound)⟩
    · exact Or.inr ⟨was,fits,free,takes,fun k bound other => (table k bound other).trans (empty k bound)⟩

/-- Once there is a table, the frame is linked in. -/
theorem mapPage_tabled (s s' : Machine) (recursive : Recursive s.mem s.dir) (v phys flags : Word) (t : Nat)
    (low : v.toNat / 2^22 < 1023)
    (ready : ensureTable s ((v >>> 22) &&& 0x3FF) flags = some (s',true)) (apart : t ≠ s.dir)
    (tabled : Tabled s s' (v.toNat / 2^22) t) :
    ∃ s', blackVmmMapPage s v phys flags = some s' ∧
      Links s s' (v.toNat / 2^22) (v.toNat / 4096 % 1024) t (frame phys) := by
  have inside : v.toNat / 4096 % 1024 < 1024 := Nat.mod_lt _ (by decide)
  have index := directory_index v
  have slot := table_index v
  have dir : s'.dir = s.dir := congrArg frame tabled.cr3
  have kept : Recursive s'.mem s.dir := recursive.kept rfl (tabled.otherTables 1023 (by decide) (by omega))
  have frames : frame ((phys &&& 0xFFFFF000) ||| (flags &&& 0xFFF) ||| pagePresent) = frame phys := by
    rw [frame_or _ _ (by decide),frame_or _ _ (and_small _ _ (by decide)),frame_masked]
  have mapped : present ((phys &&& 0xFFFFF000) ||| (flags &&& 0xFFF) ||| pagePresent) = true := by
    have bit : present pagePresent = true := by decide
    rw [present_or,bit,Bool.or_true]
  have store := store_table s' (by rw [dir]; exact kept) ((v >>> 22) &&& 0x3FF) (by omega)
    ((v >>> 12) &&& 0x3FF) ((phys &&& 0xFFFFF000) ||| (flags &&& 0xFFF) ||| pagePresent) (by omega)
    (by rw [dir,index]; exact tabled.directory.1)
  rw [dir,index,slot,tabled.directory.2] at store
  have links := tabled_links s s' (v.toNat / 2^22) _ t _ low inside apart tabled mapped
  rw [frames] at links
  refine ⟨_,?_,links⟩
  simp only [blackVmmMapPage,ready,Option.bind_eq_bind,Option.bind_some,if_true]
  exact store

/-- Mapping a page below the window of the tables: it links the frame in, or there is no
frame for a missing table and nothing happens. -/
theorem mapPage_links (s : Machine) (recursive : Recursive s.mem s.dir)
    (taken : s.dir < maxFrames → isSet s.pmm.bitmap s.dir = true) (zero : isSet s.pmm.bitmap 0 = true)
    (v phys flags : Word) (low : v.toNat / 2^22 < 1023)
    (apart : present (entry s.mem s.dir (v.toNat / 2^22)) = true →
      frame (entry s.mem s.dir (v.toNat / 2^22)) ≠ s.dir) :
    (blackVmmMapPage s v phys flags = some s ∧ present (entry s.mem s.dir (v.toNat / 2^22)) = false ∧
      ∀ f, f < maxFrames → isSet s.pmm.bitmap f = true) ∨
    ∃ s' t, blackVmmMapPage s v phys flags = some s' ∧ t ≠ s.dir ∧
      Links s s' (v.toNat / 2^22) (v.toNat / 4096 % 1024) t (frame phys) := by
  have index := directory_index v
  by_cases was : present (entry s.mem s.dir (v.toNat / 2^22)) = true
  · right
    obtain ⟨s₁,ready,tabled⟩ := ensureTable_present s recursive ((v >>> 22) &&& 0x3FF) flags (by omega)
      (by rw [index]; exact was) (by rw [index]; exact apart was)
    rw [index] at tabled
    obtain ⟨s',mapped,links⟩ := mapPage_tabled s s₁ recursive v phys flags _ low ready (apart was) tabled
    exact ⟨s',_,mapped,apart was,links⟩
  · have absent := Bool.eq_false_iff.mpr was
    rcases Pmm.allocFrame_spec s.pmm with ⟨failed,full⟩ | ⟨t,pmm,got,lowFrame,free,takes⟩
    · left
      refine ⟨?_,absent,full⟩
      have short := ensureTable_full s recursive ((v >>> 22) &&& 0x3FF) flags (by omega)
        (by rw [index]; exact absent) failed
      simp only [blackVmmMapPage,short,Option.bind_eq_bind,Option.bind_some]
      rfl
    · right
      have differs : ∀ f, (f < maxFrames → isSet s.pmm.bitmap f = true) → t ≠ f := by
        intro f on same
        subst same
        rw [on lowFrame] at free
        cases free
      obtain ⟨s₁,ready,tabled⟩ := ensureTable_fresh s recursive ((v >>> 22) &&& 0x3FF) flags (by omega)
        (by rw [index]; exact absent) t pmm got lowFrame free takes (differs 0 fun below => zero)
        (differs s.dir taken)
      rw [index] at tabled
      obtain ⟨s',mapped,links⟩ := mapPage_tabled s s₁ recursive v phys flags t low ready
        (differs s.dir taken) tabled
      exact ⟨s',t,mapped,differs s.dir taken,links⟩

end BlackOS.Vmm
