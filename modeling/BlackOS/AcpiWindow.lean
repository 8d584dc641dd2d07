import BlackOS.Acpi
import BlackOS.VmmCopy

/-! Where `black_acpi_ensure_mapped` fails: the end of a range is computed in 32 bits, and the last four
megabytes below 1 GiB go to the window of the page tables, whose slots are the directory's own. -/
namespace BlackOS.Acpi
open BlackOS.Library.Ram BlackOS.Library.Paging BlackOS.Library.Bitmap BlackOS.Vmm
open BlackOS.Pmm (maxFrames kernelVma)

/-- A directory in frame 1 with all its tables, which are empty. The last frames below 1 GiB hold words that
read as entries, but for the very last one. -/
def filledWords (f i : Nat) : Word :=
  if f = 1 then if i = 1023 then 0x1003 else word ((1024 + i) * 4096 + 3)
  else if 0x3FC00 ≤ f ∧ f < 0x3FFFF then 1 else 0

def filled : Machine where
  mem := ofEntries filledWords
  cr3 := 0x1000
  pmm := ⟨fun _ => 0xFFFFFFFF,0x40000,0x40000,0x40000000⟩

theorem filled_dir : filled.dir = 1 := (by decide : frame 0x1000 = 1)

theorem filled_entry (f i : Nat) (low : f < 2^20) (inside : i < 1024) : entry filled.mem f i = filledWords f i :=
  entry_ofEntries filledWords f i low inside

theorem filled_table (k : Nat) (inside : k < 1024) :
    present (filled.table k) = true ∧ frame (filled.table k) = if k = 1023 then 1 else 1024 + k := by
  rw [Machine.table,filled_dir,filled_entry 1 k (by decide) inside,filledWords,if_pos rfl]
  by_cases last : k = 1023
  · rw [if_pos last,if_pos last]
    decide
  · rw [if_neg last,if_neg last]
    exact boot_entry (1024 + k) (by omega)

theorem filled_recursive : Recursive filled.mem filled.dir := by
  obtain ⟨there,named⟩ := filled_table 1023 (by decide)
  rw [if_pos rfl] at named
  exact ⟨there,named.trans filled_dir.symm⟩

theorem filled_inOrder : InOrder filled where
  ordered := by
    refine ⟨filled_recursive,fun i inside j inside' _ _ same => ?_⟩
    rw [(filled_table i inside).2,(filled_table j inside').2] at same
    split_ifs at same
    all_goals omega
  taken := by
    intro k _ _ _
    exact (by decide : ∀ x < 32, (0xFFFFFFFF : Word).getLsbD x = true) _ (Nat.mod_lt _ (by decide))
  zero := by decide

/-- No page shows the frame that the call would give it. -/
theorem filled_frameAt (p : Nat) (low : p < 0x40000) : filled.frameAt (p + 0xC0000) ≠ some p := by
  by_cases below : p < 0x3FC00
  · obtain ⟨there,named⟩ := filled_table ((p + 0xC0000) / 1024) (by omega)
    rw [if_neg (by omega)] at named
    have slot : filled.slot (p + 0xC0000) = 0 := by
      rw [Machine.slot,named,filled_entry _ _ (by omega) (Nat.mod_lt _ (by decide)),filledWords,if_neg (by omega),
        if_neg (by omega)]
    rw [Machine.frameAt,Machine.pageEntry,if_pos there,slot]
    intro same
    cases same
  · obtain ⟨there,named⟩ := filled_table (p - 0x3FC00) (by omega)
    have place : p + 0xC0000 = windowPage + (p - 0x3FC00) := by
      unfold windowPage
      omega
    rw [place,window_frameAt filled filled_recursive _ (by omega),if_pos there,named]
    intro same
    have number := Option.some.inj same
    split_ifs at number
    all_goals omega

/-- The memory from the first frame of the last four megabytes below 1 GiB on is as it was. -/
def HighKept (m : Machine) : Prop := ∀ a : Word, 0x3FC00 ≤ a.toNat / 4096 → m.mem a = filled.mem a

/-- The machine at page `n` of a walk whose first page from the window on is `b`: no table has changed yet, or
the table behind slot `b - 0x3FC00` of the directory has been replaced by frame `b`, or the directory has lost
its own entry. -/
inductive Walks (b n : Nat) (m : Machine) : Prop
  | before (first : n ≤ b) (start : b = 0x3FC00 ∨ n = b) (root : m.cr3 = 0x1000) (tables : ∀ k < 1024, m.table k = filled.table k)
      (high : HighKept m)
  | inside (later : b < n) (last : n ≤ 0x3FFFF) (root : m.cr3 = 0x1000) (recursive : Recursive m.mem m.dir)
      (table : m.table (b - 0x3FC00) = kernelEntry (word (b * 4096))) (high : HighKept m)
  | broken (last : n = 0x40000) (root : m.cr3 = 0x1000) (table : m.table 1023 = kernelEntry (word (0x3FFFF * 4096)))
      (high : HighKept m)

theorem high_entry (m : Machine) (high : HighKept m) (f i : Nat) (above : 0x3FC00 ≤ f) (low : f < 2^20)
    (inside : i < 1024) : entry m.mem f i = filledWords f i := by
  rw [entry_congr filled.mem m.mem f i low inside fun a within => high a (by omega)]
  exact filled_entry f i low inside

theorem root_dir (m : Machine) (root : m.cr3 = 0x1000) : m.dir = 1 := by
  rw [Machine.dir,root]
  decide

/-- The entry that the call writes for page `n`. -/
theorem pageEntry_frame (n : Nat) (low : n < 2^20) :
    present (kernelEntry (word (n * 4096))) = true ∧ frame (kernelEntry (word (n * 4096))) = n := by
  have both := kernelEntry_frame (word (n * 4096))
  exact ⟨both.1,both.2.trans (page_frame n low)⟩

section Turn
variable (m : Machine) (n : Nat)

/-- One turn of the loop on page `n`, as long as the directory shows itself and the page's table is there. -/
theorem turn_slot (recursive : Recursive m.mem m.dir) (low : n < 0x40000)
    (there : present (m.table ((n + 0xC0000) / 1024)) = true) :
    ensureTable m (((word (n * 4096) + kernelVma) >>> 22) &&& 0x3FF) (pagePresent ||| pageWrite) = some (m,true) ∧
    blackVmmMapPage m (word (n * 4096) + kernelVma) (word (n * 4096)) (pagePresent ||| pageWrite) =
      some (m.setSlot (n + 0xC0000) (kernelEntry (word (n * 4096)))) := by
  have value := page_virtual n low
  have page : (word (n * 4096) + kernelVma).toNat / 4096 = n + 0xC0000 := by omega
  have mapped := mapPage_setSlot m recursive (word (n * 4096) + kernelVma) (word (n * 4096))
    (pagePresent ||| pageWrite) (by rw [page]; exact there) (by decide)
  rw [page] at mapped
  exact ⟨ensureTable_kept m recursive _ _ (by rw [page]; exact there) (by decide),mapped⟩

/-- A page of the window is a slot of the directory. -/
theorem turn_window (recursive : Recursive m.mem m.dir) (low : n < 0x40000) (window : 0x3FC00 ≤ n) :
    ensureTable m (((word (n * 4096) + kernelVma) >>> 22) &&& 0x3FF) (pagePresent ||| pageWrite) = some (m,true) ∧
    blackVmmMapPage m (word (n * 4096) + kernelVma) (word (n * 4096)) (pagePresent ||| pageWrite) =
      some {m with mem := setEntry m.mem m.dir (n - 0x3FC00) (kernelEntry (word (n * 4096)))} := by
  have index : (n + 0xC0000) / 1024 = 1023 := by omega
  have rest : (n + 0xC0000) % 1024 = n - 0x3FC00 := by omega
  have turn := turn_slot m n recursive low (by rw [index]; exact recursive.1)
  have named : frame (m.table 1023) = m.dir := recursive.2
  rw [Machine.setSlot,index,rest,named] at turn
  exact turn

/-- Once the directory has lost its own entry the page tables cannot be read. -/
theorem turn_broken (table : m.table 1023 = kernelEntry (word (0x3FFFF * 4096)))
    (high : HighKept m) (i flags : Word) (first : i = 0) : ensureTable m i flags = none := by
  have last := pageEntry_frame 0x3FFFF (by decide)
  have slot : m.slot (1023 * 1024 + 1023) = 0 := by
    have index : (1023 * 1024 + 1023) / 1024 = 1023 := by decide
    rw [Machine.slot,index,table,last.2,high_entry m high 0x3FFFF _ (by decide) (by decide) (by decide)]
    decide
  have hidden : m.pageEntry (1023 * 1024 + 1023) = none := by
    have index : (1023 * 1024 + 1023) / 1024 = 1023 := by decide
    rw [Machine.pageEntry,index,slot,table,if_pos last.1]
    decide
  have fault : m.load32 (blackGetPd + i * 4) = none := by
    have value : (blackGetPd + i * 4).toNat / 4096 = 1023 * 1024 + 1023 := by
      rw [first]
      decide
    rw [Machine.load32,translate_page,value,hidden]
    rfl
  rw [ensureTable,fault]
  rfl

end Turn

theorem high_below (m : Machine) (high : HighKept m) (f i : Nat) (e : Word) (below : f < 0x3FC00)
    (inside : i < 1024) : HighKept {m with mem := setEntry m.mem f i e} := fun a above =>
  (setEntry_elsewhere m.mem f i e a (by omega) inside (by omega)).trans (high a above)

section Steps
variable (b n : Nat) (m : Machine) (from_ : 0x3FC00 ≤ b) (upto : b < 0x40000)

/-- The call for page `n` has a table, if it returns. -/
def Turns (m : Machine) (n : Nat) (next : Machine → Prop) : Prop :=
  (∃ m', ensureTable m (((word (n * 4096) + kernelVma) >>> 22) &&& 0x3FF) (pagePresent ||| pageWrite) =
      some (m,true) ∧
    blackVmmMapPage m (word (n * 4096) + kernelVma) (word (n * 4096)) (pagePresent ||| pageWrite) = some m' ∧
    next m') ∨
  (ensureTable m (((word (n * 4096) + kernelVma) >>> 22) &&& 0x3FF) (pagePresent ||| pageWrite) = none ∧
    blackVmmMapPage m (word (n * 4096) + kernelVma) (word (n * 4096)) (pagePresent ||| pageWrite) = none)

theorem tables_recursive (root : m.cr3 = 0x1000) (last : m.table 1023 = filled.table 1023) :
    Recursive m.mem m.dir :=
  filled_recursive.kept ((root_dir m root).trans filled_dir.symm) last

theorem step_below (first : n < b) (start : b = 0x3FC00) (root : m.cr3 = 0x1000)
    (tables : ∀ k < 1024, m.table k = filled.table k) (high : HighKept m) : Turns m n (Walks b (n + 1)) := by
  left
  have same := tables ((n + 0xC0000) / 1024) (by omega)
  obtain ⟨there,named⟩ := filled_table ((n + 0xC0000) / 1024) (by omega)
  rw [← same] at there named
  rw [if_neg (by omega)] at named
  obtain ⟨ready,mapped⟩ := turn_slot m n (tables_recursive m root (tables 1023 (by decide))) (by omega) there
  have apart : frame (m.table ((n + 0xC0000) / 1024)) ≠ m.dir := by
    rw [named,root_dir m root]
    omega
  refine ⟨_,ready,mapped,.before (by omega) (.inl start) root (fun k inside => ?_) ?_⟩
  · exact (own_table m _ apart _ k inside).trans (tables k inside)
  · exact high_below m high _ _ _ (by omega) (Nat.mod_lt _ (by decide))

include from_ upto

theorem step_first (start : n = b) (root : m.cr3 = 0x1000) (tables : ∀ k < 1024, m.table k = filled.table k)
    (high : HighKept m) : Turns m n (Walks b (n + 1)) := by
  left
  subst start
  have recursive := tables_recursive m root (tables 1023 (by decide))
  have dir := root_dir m root
  obtain ⟨ready,mapped⟩ := turn_window m n recursive upto from_
  have kept := high_below m high m.dir (n - 0x3FC00) (kernelEntry (word (n * 4096))) (by omega) (by omega)
  refine ⟨_,ready,mapped,?_⟩
  by_cases last : n = 0x3FFFF
  · subst last
    exact .broken rfl root (entry_setEntry _ _ _ _) kept
  · have other : entry (setEntry m.mem m.dir (n - 0x3FC00) (kernelEntry (word (n * 4096)))) m.dir 1023 =
        entry m.mem m.dir 1023 :=
      entry_setEntry_other _ _ _ _ _ _ (frame_lt _) (by omega) (frame_lt _) (by decide) (.inr (by omega))
    exact .inside (by omega) (by omega) root (recursive.kept rfl other) (entry_setEntry _ _ _ _) kept

theorem step_inside (later : b < n) (last : n ≤ 0x3FFFF) (root : m.cr3 = 0x1000) (recursive : Recursive m.mem m.dir)
    (table : m.table (b - 0x3FC00) = kernelEntry (word (b * 4096))) (high : HighKept m) :
    Turns m n (Walks b (n + 1)) := by
  left
  have dir := root_dir m root
  obtain ⟨ready,mapped⟩ := turn_window m n recursive (by omega) (by omega)
  have kept := high_below m high m.dir (n - 0x3FC00) (kernelEntry (word (n * 4096))) (by omega) (by omega)
  refine ⟨_,ready,mapped,?_⟩
  by_cases final : n = 0x3FFFF
  · subst final
    exact .broken rfl root (entry_setEntry _ _ _ _) kept
  · have other (k : Nat) (inside : k < 1024) (differs : k ≠ n - 0x3FC00) :
        entry (setEntry m.mem m.dir (n - 0x3FC00) (kernelEntry (word (n * 4096)))) m.dir k = entry m.mem m.dir k :=
      entry_setEntry_other _ _ _ _ _ _ (frame_lt _) (by omega) (frame_lt _) inside (.inr differs)
    exact .inside (by omega) (by omega) root (recursive.kept rfl (other 1023 (by decide) (by omega)))
      ((other (b - 0x3FC00) (by omega) (by omega)).trans table) kept

theorem walks_step (walks : Walks b n m) : Turns m n (Walks b (n + 1)) := by
  cases walks with
  | before first start root tables high =>
    by_cases here : n = b
    · exact step_first b n m from_ upto here root tables high
    · exact step_below b n m (by omega) (start.resolve_right here) root tables high
  | inside later last root recursive table high =>
    exact step_inside b n m from_ upto later last root recursive table high
  | broken last root table high =>
    right
    have index : ((word (n * 4096) + kernelVma) >>> 22) &&& 0x3FF = 0 := by
      rw [last]
      decide
    have fault := turn_broken m table high _ (pagePresent ||| pageWrite) index
    refine ⟨fault,?_⟩
    rw [blackVmmMapPage,fault]
    rfl

/-- A walk does not want for a frame, and ends as a walk. -/
theorem walks_run (e : Nat) (low : e < 2^20) : ∀ fuel n m, n ≤ e → Walks b n m →
    Supplied (word (e * 4096)) fuel m (word (n * 4096)) ∧
      ∀ s', mapPages (word (e * 4096)) fuel m (word (n * 4096)) = some s' → Walks b e s' := by
  intro fuel
  induction fuel with
  | zero => exact fun n m _ _ => ⟨trivial,nofun⟩
  | succ fuel ih =>
    intro n m upto_ walks
    have turns := walks_step b n m from_ upto walks
    have less := page_lt n e (by omega) low
    refine ⟨fun turn => ?_,fun s' done => ?_⟩
    · have more := less.mp turn
      rcases turns with ⟨m',ready,mapped,next⟩ | ⟨fault,gone⟩
      · refine ⟨fun s' flag found => ?_,fun s' found => ?_⟩
        · exact (Prod.mk.inj (Option.some.inj (ready.symm.trans found))).2.symm
        · obtain rfl := Option.some.inj (mapped.symm.trans found)
          rw [page_next]
          exact (ih (n + 1) m' more next).1
      · refine ⟨fun s' flag found => ?_,fun s' found => ?_⟩
        · cases fault.symm.trans found
        · cases gone.symm.trans found
    · rw [mapPages] at done
      by_cases more : n < e
      · rw [if_pos (less.mpr more)] at done
        obtain ⟨m₁,found,rest⟩ := Option.bind_eq_some_iff.mp done
        rcases turns with ⟨m',_,mapped,next⟩ | ⟨_,gone⟩
        · obtain rfl := Option.some.inj (mapped.symm.trans found)
          rw [page_next] at rest
          exact (ih (n + 1) m' more next).2 s' rest
        · cases gone.symm.trans found
      · rw [if_neg (fun turn => more (less.mp turn))] at done
        obtain rfl := Option.some.inj done
        obtain rfl : n = e := by omega
        exact walks

end Steps

/-- The first page of a range that goes to the window. -/
def windowStart (n : Nat) : Nat := max n 0x3FC00

theorem windowStart_spec (n : Nat) (low : n < 0x40000) : 0x3FC00 ≤ windowStart n ∧ windowStart n < 0x40000 ∧
    n ≤ windowStart n ∧ (windowStart n = 0x3FC00 ∨ n = windowStart n) := by
  unfold windowStart
  rcases Nat.le_total n 0x3FC00 with below | above
  · rw [Nat.max_eq_right below]
    omega
  · rw [Nat.max_eq_left above]
    omega

section Unmapped
variable (phys size : Word) (s' : Machine)

/-- No table is missing, so that only the pages of the range may change. -/
theorem filled_kept (mapped : Mapped filled s' phys size) (q : Nat) (inside : q < 2^20)
    (outside : ∀ p < 0x40000, Overlaps phys size p → q ≠ p + 0xC0000) : s'.frameAt q = filled.frameAt q := by
  rcases mapped.elsewhere q inside outside with same | ⟨p,below,_,_,absent⟩
  · exact same
  · rw [(filled_table ((p + 0xC0000) / 1024) (by omega)).1] at absent
    cases absent

/-- The page frame that replaced a table is read as one. -/
theorem inside_unmapped (b : Nat) (from_ : 0x3FC00 ≤ b) (upto : b < 0x3FFFF)
    (table : s'.table (b - 0x3FC00) = kernelEntry (word (b * 4096))) (high : HighKept s')
    (outside : ∀ p < 0x40000, Overlaps phys size p → (b - 0x3FC00) * 1024 ≠ p + 0xC0000) :
    ¬Mapped filled s' phys size := by
  intro mapped
  have behind := pageEntry_frame b (by omega)
  have index : (b - 0x3FC00) * 1024 / 1024 = b - 0x3FC00 := by omega
  have rest : (b - 0x3FC00) * 1024 % 1024 = 0 := by omega
  have after : s'.frameAt ((b - 0x3FC00) * 1024) = some 0 := by
    have slot : s'.slot ((b - 0x3FC00) * 1024) = 1 := by
      rw [Machine.slot,index,rest,table,behind.2,high_entry s' high b 0 from_ (by omega) (by decide),filledWords,
        if_neg (by omega),if_pos (by omega)]
    rw [Machine.frameAt,Machine.pageEntry,index,table,slot,if_pos behind.1]
    decide
  have before : filled.frameAt ((b - 0x3FC00) * 1024) = none := by
    obtain ⟨there,named⟩ := filled_table (b - 0x3FC00) (by omega)
    have slot : filled.slot ((b - 0x3FC00) * 1024) = 0 := by
      rw [Machine.slot,index,rest,named,if_neg (by omega),filled_entry _ _ (by omega) (by decide),filledWords,
        if_neg (by omega),if_neg (by omega)]
    rw [Machine.frameAt,Machine.pageEntry,index,slot,if_pos there]
    decide
  have same := filled_kept phys size s' mapped ((b - 0x3FC00) * 1024) (by omega) outside
  cases after.symm.trans (same.trans before)

/-- Without the directory's own entry the window shows no table. -/
theorem broken_unmapped (table : s'.table 1023 = kernelEntry (word (0x3FFFF * 4096))) (high : HighKept s') :
    ¬Mapped filled s' phys size := by
  intro mapped
  have behind := pageEntry_frame 0x3FFFF (by decide)
  have index : windowPage / 1024 = 1023 := by decide
  have after : s'.frameAt windowPage = none := by
    have slot : s'.slot windowPage = 0 := by
      rw [Machine.slot,index,table,behind.2,high_entry s' high 0x3FFFF _ (by decide) (by decide) (by decide)]
      decide
    rw [Machine.frameAt,Machine.pageEntry,index,table,slot,if_pos behind.1]
    decide
  have before : filled.frameAt windowPage = some 1024 := by
    obtain ⟨there,named⟩ := filled_table 0 (by decide)
    refine (window_frameAt filled filled_recursive 0 (by decide)).trans ?_
    rw [if_pos there,named]
    decide
  have place : windowPage = 0x3FC00 + 0xC0000 := by decide
  by_cases wanted : Overlaps phys size 0x3FC00
  · have shown := mapped.here 0x3FC00 (by decide) wanted
    rw [← place,after] at shown
    cases shown
  · have outside : ∀ p < 0x40000, Overlaps phys size p → windowPage ≠ p + 0xC0000 := by
      intro p _ overlaps equal
      obtain rfl : p = 0x3FC00 := by omega
      exact wanted overlaps
    cases after.symm.trans ((filled_kept phys size s' mapped windowPage (by decide) outside).trans before)

end Unmapped

section Incomplete
variable (phys size : Word) (low : phys.toNat < 0x40000000)
include low

theorem filled_walks : Walks (windowStart (phys.toNat / 4096)) (phys.toNat / 4096) filled := by
  obtain ⟨_,_,first,start⟩ := windowStart_spec (phys.toNat / 4096) (by omega)
  exact .before first start rfl (fun _ _ => rfl) fun _ _ => rfl

theorem filled_supplied : Supplied (endOf phys size) (2^20 + 1) filled (startOf phys) := by
  obtain ⟨from_,upto,_,_⟩ := windowStart_spec (phys.toNat / 4096) (by omega)
  have lowEnd := frame_lt (phys + size + 0xFFF)
  rw [endOf_eq,startOf_eq]
  by_cases runs : phys.toNat / 4096 ≤ frame (phys + size + 0xFFF)
  · exact (walks_run _ from_ upto _ lowEnd _ _ _ runs (filled_walks phys low)).1
  · intro turn
    have less := (page_lt _ _ (by omega) lowEnd).mp turn
    omega

theorem incomplete_short (some_ : size.toNat ≠ 0) (short : frame (phys + size + 0xFFF) ≤ phys.toNat / 4096) :
    ¬Complete phys size := by
  intro complete
  obtain ⟨s',done,mapped⟩ := complete filled filled_inOrder (filled_supplied phys size low)
  have stays : blackAcpiEnsureMapped filled phys size = some filled := by
    have ended : ¬word (phys.toNat / 4096 * 4096) < word (frame (phys + size + 0xFFF) * 4096) := by
      rw [page_lt _ _ (by omega) (frame_lt _)]
      omega
    rw [blackAcpiEnsureMapped,endOf_eq,startOf_eq,mapPages,if_neg ended]
  obtain rfl := Option.some.inj (stays.symm.trans done)
  exact filled_frameAt _ (by omega) (mapped.here _ (by omega) ⟨phys.toNat,Nat.le_refl _,by omega,rfl⟩)

/-- What a walk that has reached the window leaves is not what the call is for. -/
theorem walks_unmapped (s' : Machine) (e : Nat) (window : windowStart (phys.toNat / 4096) < e)
    (walks : Walks (windowStart (phys.toNat / 4096)) e s') : ¬Mapped filled s' phys size := by
  obtain ⟨from_,upto,first,_⟩ := windowStart_spec (phys.toNat / 4096) (by omega)
  cases walks with
  | before first => omega
  | inside later last root recursive table high =>
    refine inside_unmapped phys size s' (windowStart (phys.toNat / 4096)) from_ (by omega) table high ?_
    intro p _ overlaps
    obtain ⟨x,above,_,page⟩ := overlaps
    omega
  | broken last root table high => exact broken_unmapped phys size s' table high

theorem incomplete_window (runs : phys.toNat / 4096 < frame (phys + size + 0xFFF))
    (window : 0x3FC00 < frame (phys + size + 0xFFF)) : ¬Complete phys size := by
  intro complete
  obtain ⟨from_,upto,_,start⟩ := windowStart_spec (phys.toNat / 4096) (by omega)
  obtain ⟨s',done,mapped⟩ := complete filled filled_inOrder (filled_supplied phys size low)
  rw [blackAcpiEnsureMapped,endOf_eq,startOf_eq] at done
  have walks := (walks_run _ from_ upto _ (frame_lt (phys + size + 0xFFF)) _ _ _ (by omega)
    (filled_walks phys low)).2 s' done
  exact walks_unmapped phys size low s' _ (by omega) walks mapped

theorem filled_grown (window : frame (phys + size + 0xFFF) ≤ 0x3FC00)
    (runs : phys.toNat / 4096 ≤ frame (phys + size + 0xFFF)) (s' : Machine)
    (done : blackAcpiEnsureMapped filled phys size = some s') :
    Grown filled s' (phys.toNat / 4096) (frame (phys + size + 0xFFF)) := by
  have supplied := filled_supplied phys size low
  rw [endOf_eq,startOf_eq] at supplied
  obtain ⟨s₁,mapped,grown⟩ := mapPages_grown filled (phys.toNat / 4096) (frame (phys + size + 0xFFF))
    (frame (phys + size + 0xFFF) - phys.toNat / 4096) window (phys.toNat / 4096) (2^20 + 1) filled (by omega)
    (Nat.le_refl _) (by omega) (grown_start filled filled_inOrder _) supplied
  rw [blackAcpiEnsureMapped,endOf_eq,startOf_eq] at done
  obtain rfl := Option.some.inj (mapped.symm.trans done)
  exact grown

theorem incomplete_empty (none_ : size.toNat = 0) (runs : phys.toNat / 4096 < frame (phys + size + 0xFFF))
    (window : frame (phys + size + 0xFFF) ≤ 0x3FC00) : ¬Complete phys size := by
  intro complete
  obtain ⟨s',done,mapped⟩ := complete filled filled_inOrder (filled_supplied phys size low)
  have grown := filled_grown phys size low window (by omega) s' done
  have empty (p : Nat) : ¬Overlaps phys size p := by
    intro overlaps
    obtain ⟨x,above,below,_⟩ := overlaps
    omega
  have shown := grown.frames (phys.toNat / 4096 + 0xC0000) (by omega)
  rw [if_pos (by omega)] at shown
  have same := filled_kept phys size s' mapped (phys.toNat / 4096 + 0xC0000) (by omega)
    fun p _ overlaps => (empty p overlaps).elim
  refine filled_frameAt (phys.toNat / 4096) (by omega) (same.symm.trans (shown.trans ?_))
  exact congrArg some (by omega)

/-- A range whose end does not fit in 32 bits has at most its first page mapped. -/
theorem incomplete_wrapped (last : frame (phys + size + 0xFFF) = phys.toNat / 4096 + 1)
    (window : frame (phys + size + 0xFFF) ≤ 0x3FC00) (more : Overlaps phys size (phys.toNat / 4096 + 1)) :
    ¬Complete phys size := by
  intro complete
  obtain ⟨s',done,mapped⟩ := complete filled filled_inOrder (filled_supplied phys size low)
  have grown := filled_grown phys size low window (by omega) s' done
  have wanted := mapped.here _ (by omega) more
  refine filled_frameAt (phys.toNat / 4096 + 1) (by omega) (Eq.trans ?_ wanted)
  symm
  by_cases below : phys.toNat / 4096 + 1 < 0x3FC00
  · rw [grown.frames _ (by omega),if_neg (by omega)]
  · have place : phys.toNat / 4096 + 1 + 0xC0000 = windowPage + 0 := by
      unfold windowPage
      omega
    rw [place]
    rcases grown_window filled s' filled_inOrder _ _ grown 0 (by decide) with same | ⟨p,_,_,_,absent⟩
    · exact same
    · rw [(filled_table 0 (by decide)).1] at absent
      cases absent

theorem incomplete_beyond (beyond : ¬phys.toNat + size.toNat ≤ 0x3FC00000) (some_ : size.toNat ≠ 0) :
    ¬Complete phys size := by
  have last := last_eq phys size
  have bound := size.isLt
  by_cases short : frame (phys + size + 0xFFF) ≤ phys.toNat / 4096
  · exact incomplete_short phys size low some_ short
  · by_cases window : 0x3FC00 < frame (phys + size + 0xFFF)
    · exact incomplete_window phys size low (by omega) window
    · refine incomplete_wrapped phys size low (by omega) (by omega) ⟨(phys.toNat / 4096 + 1) * 4096,?_,?_,?_⟩
      all_goals omega

end Incomplete

/-- The call maps the pages of every range that has an end at or below the window's physical address, and of an
empty range at the start of a page, and of no other. -/
theorem ensureMapped_iff (phys size : Word) (low : phys.toNat < 0x40000000) : Complete phys size ↔
    if size.toNat = 0 then phys.toNat % 4096 = 0 else phys.toNat + size.toNat ≤ 0x3FC00000 := by
  have last := last_eq phys size
  by_cases none_ : size.toNat = 0
  · rw [if_pos none_]
    refine ⟨fun complete => ?_,fun aligned => complete_empty phys size none_ aligned low⟩
    by_contra inside
    by_cases window : 0x3FC00 < frame (phys + size + 0xFFF)
    · exact incomplete_window phys size low (by omega) window complete
    · exact incomplete_empty phys size low none_ (by omega) (by omega) complete
  · rw [if_neg none_]
    refine ⟨fun complete => ?_,fun below => complete_below phys size none_ below⟩
    by_contra beyond
    exact incomplete_beyond phys size low beyond none_ complete

theorem ensureMapped_iff_header : Complete 0x7FE0000 0x24 :=
  (ensureMapped_iff 0x7FE0000 0x24 (by decide)).mpr (by decide)

/-- A header in the window's first page, one whose length runs past the last address, and an empty one. -/
theorem ensureMapped_incomplete : ¬Complete 0x3FC00000 0x24 ∧ ¬Complete 0x7FE0000 0xFFFFFFFF ∧ ¬Complete 0x7FE0010 0 :=
  ⟨incomplete_beyond _ _ (by decide) (by decide) (by decide),
    incomplete_beyond _ _ (by decide) (by decide) (by decide),
    incomplete_empty _ _ (by decide) (by decide) (by decide) (by decide)⟩

end BlackOS.Acpi
