import BlackOS.VmmCow

/-! `black_acpi_ensure_mapped` of `kernel/acpi/acpi.c`: the pages of a table of the firmware, mapped at their
addresses in the kernel half. -/
namespace BlackOS.Acpi
open BlackOS.Library.Ram BlackOS.Library.Paging BlackOS.Library.Bitmap BlackOS.Vmm
open BlackOS.Pmm (maxFrames kernelVma)

/-- The loop over the pages. There are 2^20 addresses of pages, and its turns are fewer. -/
def mapPages (end_ : Word) : Nat → Machine → Word → Option Machine
  | 0,_,_ => none
  | fuel+1,s,page =>
    if page < end_ then do
      let virt := page + kernelVma
      let s ← blackVmmMapPage s virt page (pagePresent ||| pageWrite)
      mapPages end_ fuel s (page + 0x1000)
    else some s

def startOf (phys : Word) : Word := phys &&& 0xFFFFF000

def endOf (phys size : Word) : Word := (phys + size + 0xFFF) &&& 0xFFFFF000

def blackAcpiEnsureMapped (s : Machine) (phys size : Word) : Option Machine :=
  mapPages (endOf phys size) (2^20 + 1) s (startOf phys)

/-- No page table that the loop misses wants for a frame. -/
def Supplied (end_ : Word) : Nat → Machine → Word → Prop
  | 0,_,_ => True
  | fuel+1,s,page => page < end_ →
    (∀ s' ready, ensureTable s (((page + kernelVma) >>> 22) &&& 0x3FF) (pagePresent ||| pageWrite) =
      some (s',ready) → ready = true) ∧
    ∀ s', blackVmmMapPage s (page + kernelVma) page (pagePresent ||| pageWrite) = some s' →
      Supplied end_ fuel s' (page + 0x1000)

/-- A byte of the range is in page `p`. -/
def Overlaps (phys size : Word) (p : Nat) : Prop :=
  ∃ b, phys.toNat ≤ b ∧ b < phys.toNat + size.toNat ∧ b / 4096 = p

/-- The pages of the range below 1 GiB are mapped, and no other page has another translation, unless it shows
a page table that was missing. -/
structure Mapped (s s' : Machine) (phys size : Word) : Prop where
  here : ∀ p < 0x40000, Overlaps phys size p → s'.frameAt (p + 0xC0000) = some p
  elsewhere : ∀ q < 2^20, (∀ p < 0x40000, Overlaps phys size p → q ≠ p + 0xC0000) →
    s'.frameAt q = s.frameAt q ∨ ∃ p < 0x40000, Overlaps phys size p ∧
      q = windowPage + (p + 0xC0000) / 1024 ∧ present (s.table ((p + 0xC0000) / 1024)) = false

/-- The call does what it is for on all page tables in order. -/
def Complete (phys size : Word) : Prop :=
  ∀ s, InOrder s → Supplied (endOf phys size) (2^20 + 1) s (startOf phys) →
    ∃ s', blackAcpiEnsureMapped s phys size = some s' ∧ Mapped s s' phys size

section Pages
variable (n : Nat)

theorem page_next : word (n * 4096) + 0x1000 = word ((n + 1) * 4096) := by
  have sum := word_add (n * 4096) 4096
  rw [show n * 4096 + 4096 = (n + 1) * 4096 by omega] at sum
  exact sum

theorem page_lt (e : Nat) (low : n < 2^20) (low' : e < 2^20) : word (n * 4096) < word (e * 4096) ↔ n < e := by
  rw [BitVec.lt_def,word_toNat _ (by omega),word_toNat _ (by omega)]
  omega

theorem page_frame (low : n < 2^20) : frame (word (n * 4096)) = n := by
  rw [frame,word_toNat _ (by omega)]
  omega

theorem page_virtual (low : n < 0x40000) : (word (n * 4096) + kernelVma).toNat = (n + 0xC0000) * 4096 := by
  have sum : word (n * 4096) + kernelVma = word (n * 4096 + 0xC0000000) := word_add _ _
  rw [sum,word_toNat _ (by omega)]
  omega

end Pages

/-- What the pages from `a` up to `n` leave, when they are below the window. -/
structure Grown (s m : Machine) (a n : Nat) : Prop where
  order : InOrder m
  frames : ∀ q, q / 1024 < 1023 → m.frameAt q =
    if a + 0xC0000 ≤ q ∧ q < n + 0xC0000 then some (q - 0xC0000) else s.frameAt q
  tables : ∀ k < 1024, present (s.table k) = true →
    present (m.table k) = true ∧ frame (m.table k) = frame (s.table k)
  missing : ∀ k < 1024, present (s.table k) = false →
    (∀ p, a ≤ p → p < n → k ≠ (p + 0xC0000) / 1024) → m.table k = s.table k

theorem grown_start (s : Machine) (order : InOrder s) (a : Nat) : Grown s s a a where
  order := order
  frames := fun q _ => by rw [if_neg (by omega)]
  tables := fun _ _ there => ⟨there,rfl⟩
  missing := fun _ _ _ _ => rfl

theorem grown_next (s m m' : Machine) (a n t : Nat) (first : a ≤ n) (low : n < 0x3FC00) (grown : Grown s m a n)
    (linked : Linked m m' (n + 0xC0000) t n) : Grown s m' a (n + 1) where
  order := linked_inOrder m m' _ t n grown.order linked
  frames := by
    intro q below
    rw [linked_frameAt m m' _ t n linked q below,grown.frames q below]
    by_cases here : q = n + 0xC0000
    · rw [if_pos here,if_pos (by omega)]
      exact congrArg some (by omega)
    · rw [if_neg here]
      by_cases inside : a + 0xC0000 ≤ q ∧ q < n + 0xC0000
      · rw [if_pos inside,if_pos (by omega)]
      · rw [if_neg inside,if_neg (by omega)]
  tables := by
    intro k inside there
    obtain ⟨was,named⟩ := grown.tables k inside there
    by_cases here : k = (n + 0xC0000) / 1024
    · have table := linked_table_here m m' _ t n linked
      rcases linked.links.origin with ⟨_,same,_⟩ | ⟨absent,_⟩
      · have behind : frame (m.table ((n + 0xC0000) / 1024)) = t := same
        rw [here] at named ⊢
        exact ⟨table.1,table.2.trans (behind.symm.trans named)⟩
      · have hidden : present (m.table ((n + 0xC0000) / 1024)) = false := absent
        rw [here,hidden] at was
        cases was
    · rw [linked_table_other m m' _ t n linked k inside here]
      exact ⟨was,named⟩
  missing := by
    intro k inside absent outside
    rw [linked_table_other m m' _ t n linked k inside (outside n first (by omega))]
    exact grown.missing k inside absent fun p above below => outside p above (by omega)

/-- A page below the window is linked in, as its table does not want for a frame. -/
theorem mapPage_supplied (m : Machine) (order : InOrder m) (n : Nat) (low : n < 0x3FC00)
    (ready : ∀ s' ready, ensureTable m (((word (n * 4096) + kernelVma) >>> 22) &&& 0x3FF) (pagePresent ||| pageWrite) =
      some (s',ready) → ready = true) :
    ∃ m' t, blackVmmMapPage m (word (n * 4096) + kernelVma) (word (n * 4096)) (pagePresent ||| pageWrite) = some m' ∧
      Linked m m' (n + 0xC0000) t n := by
  have value := page_virtual n (by omega)
  have page : (word (n * 4096) + kernelVma).toNat / 4096 = n + 0xC0000 := by omega
  rcases mapPage_inOrder m order (word (n * 4096) + kernelVma) (word (n * 4096)) (pagePresent ||| pageWrite)
    (by omega) with ⟨_,absent,full⟩ | ⟨m',t,mapped,linked⟩
  · have failed : (Pmm.blackPmmAllocFrame m.pmm).2 = 0 := by
      rcases Pmm.allocFrame_spec m.pmm with ⟨same,_⟩ | ⟨f,_,_,lowFrame,free,_⟩
      · rw [same]
      · rw [full f lowFrame] at free
        cases free
    have index := directory_index (word (n * 4096) + kernelVma)
    have table : (((word (n * 4096) + kernelVma) >>> 22) &&& 0x3FF).toNat =
        (word (n * 4096) + kernelVma).toNat / 4096 / 1024 := by omega
    have fails := ensureTable_fails m order.ordered.recursive (((word (n * 4096) + kernelVma) >>> 22) &&& 0x3FF)
      (pagePresent ||| pageWrite) (by omega) (by rw [table]; exact absent) failed
    cases ready _ _ fails
  · rw [page,page_frame n (by omega)] at linked
    exact ⟨m',t,mapped,linked⟩

theorem mapPages_grown (s : Machine) (a e left : Nat) (end_ : e ≤ 0x3FC00) :
    ∀ n fuel m, n + left = e → a ≤ n → left < fuel → Grown s m a n →
      Supplied (word (e * 4096)) fuel m (word (n * 4096)) →
      ∃ s', mapPages (word (e * 4096)) fuel m (word (n * 4096)) = some s' ∧ Grown s s' a e := by
  induction left with
  | zero =>
    intro n fuel m last _ room grown _
    obtain ⟨fuel,rfl⟩ := Nat.exists_eq_add_of_lt room
    have done : ¬word (n * 4096) < word (e * 4096) := by
      rw [page_lt n e (by omega) (by omega)]
      omega
    rw [Nat.zero_add,mapPages,if_neg done]
    obtain rfl : n = e := last
    exact ⟨m,rfl,grown⟩
  | succ left ih =>
    intro n fuel m last first room grown supplied
    obtain ⟨fuel,rfl⟩ := Nat.exists_eq_add_of_lt room
    have turn := (page_lt n e (by omega) (by omega)).mpr (by omega)
    obtain ⟨ready,rest⟩ := supplied turn
    obtain ⟨m',t,mapped,linked⟩ := mapPage_supplied m grown.order n (by omega) ready
    obtain ⟨s',done,final⟩ := ih (n + 1) (left + 1 + fuel) m' (by omega) (by omega) (by omega)
      (grown_next s m m' a n t first (by omega) grown linked) (by rw [← page_next]; exact rest m' mapped)
    refine ⟨s',?_,final⟩
    rw [mapPages,if_pos turn]
    simp only [mapped,Option.bind_eq_bind,Option.bind_some,page_next]
    exact done

theorem window_frameAt (s : Machine) (recursive : Recursive s.mem s.dir) (k : Nat) (inside : k < 1024) :
    s.frameAt (windowPage + k) = if present (s.table k) then some (frame (s.table k)) else none := by
  rw [Machine.frameAt,windowPage,window_pageEntry s recursive k inside]
  by_cases there : present (s.table k) = true
  · rw [if_pos there,if_pos there,Option.map_some]
  · rw [if_neg there,if_neg there,Option.map_none]

theorem grown_window (s s' : Machine) (order : InOrder s) (a e : Nat) (grown : Grown s s' a e) (k : Nat)
    (inside : k < 1024) : s'.frameAt (windowPage + k) = s.frameAt (windowPage + k) ∨
      ∃ p, a ≤ p ∧ p < e ∧ k = (p + 0xC0000) / 1024 ∧ present (s.table k) = false := by
  rw [window_frameAt s' grown.order.ordered.recursive k inside,window_frameAt s order.ordered.recursive k inside]
  by_cases there : present (s.table k) = true
  · obtain ⟨shown,named⟩ := grown.tables k inside there
    rw [if_pos there,if_pos shown,named]
    exact .inl rfl
  · have absent := Bool.eq_false_iff.mpr there
    by_cases needed : ∃ p, a ≤ p ∧ p < e ∧ k = (p + 0xC0000) / 1024
    · obtain ⟨p,above,below,index⟩ := needed
      exact .inr ⟨p,above,below,index,absent⟩
    · rw [grown.missing k inside absent fun p above below index => needed ⟨p,above,below,index⟩]
      exact .inl rfl

section Range
variable (phys size : Word)

theorem startOf_eq : startOf phys = word (phys.toNat / 4096 * 4096) := masked_frame phys

theorem endOf_eq : endOf phys size = word (frame (phys + size + 0xFFF) * 4096) := masked_frame _

/-- The end as the code computes it, in 32 bits. -/
theorem last_eq : frame (phys + size + 0xFFF) = (phys.toNat + size.toNat + 0xFFF) % 2^32 / 4096 := by
  have round : (0xFFF : Word).toNat = 0xFFF := rfl
  rw [frame,BitVec.toNat_add,BitVec.toNat_add,round,Nat.mod_add_mod]

theorem overlaps_iff (some_ : size.toNat ≠ 0) (p : Nat) : Overlaps phys size p ↔
    phys.toNat / 4096 ≤ p ∧ p < (phys.toNat + size.toNat + 0xFFF) / 4096 := by
  constructor
  · intro inside
    obtain ⟨b,above,below,rfl⟩ := inside
    omega
  · intro inside
    refine ⟨max phys.toNat (p * 4096),Nat.le_max_left _ _,?_,?_⟩
    · rw [Nat.max_lt]
      omega
    · rcases Nat.le_total phys.toNat (p * 4096) with low | high
      · rw [Nat.max_eq_right low]
        omega
      · rw [Nat.max_eq_left high]
        omega

theorem grown_mapped (s s' : Machine) (order : InOrder s) (some_ : size.toNat ≠ 0)
    (below : phys.toNat + size.toNat ≤ 0x3FC00000)
    (grown : Grown s s' (phys.toNat / 4096) ((phys.toNat + size.toNat + 0xFFF) / 4096)) :
    Mapped s s' phys size where
  here := by
    intro p _ inside
    obtain ⟨above,under⟩ := (overlaps_iff phys size some_ p).mp inside
    rw [grown.frames (p + 0xC0000) (by omega),if_pos (by omega)]
    exact congrArg some (by omega)
  elsewhere := by
    intro q inside outside
    have window : windowPage = 1023 * 1024 := rfl
    by_cases low : q / 1024 < 1023
    · left
      rw [grown.frames q low]
      refine if_neg fun within => ?_
      exact outside (q - 0xC0000) (by omega) ((overlaps_iff phys size some_ _).mpr (by omega)) (by omega)
    · have place : windowPage + (q - windowPage) = q := by omega
      rcases grown_window s s' order _ _ grown (q - windowPage) (by omega) with same | ⟨p,above,under,index,absent⟩
      · left
        rw [place] at same
        exact same
      · right
        refine ⟨p,by omega,(overlaps_iff phys size some_ p).mpr ⟨above,under⟩,by omega,?_⟩
        rw [← index]
        exact absent

/-- A range that ends below the window of the page tables is mapped as it should be. -/
theorem complete_below (some_ : size.toNat ≠ 0) (below : phys.toNat + size.toNat ≤ 0x3FC00000) :
    Complete phys size := by
  intro s order supplied
  have last : frame (phys + size + 0xFFF) = (phys.toNat + size.toNat + 0xFFF) / 4096 := by
    rw [last_eq,Nat.mod_eq_of_lt (by omega)]
  rw [endOf_eq,last,startOf_eq] at supplied
  obtain ⟨s',done,grown⟩ := mapPages_grown s (phys.toNat / 4096) ((phys.toNat + size.toNat + 0xFFF) / 4096)
    ((phys.toNat + size.toNat + 0xFFF) / 4096 - phys.toNat / 4096) (by omega) (phys.toNat / 4096) (2^20 + 1) s
    (by omega) (Nat.le_refl _) (by omega) (grown_start s order _) supplied
  refine ⟨s',?_,grown_mapped phys size s s' order some_ below grown⟩
  rw [blackAcpiEnsureMapped,endOf_eq,last,startOf_eq]
  exact done

/-- An empty range at the start of a page takes no turn. -/
theorem complete_empty (none_ : size.toNat = 0) (aligned : phys.toNat % 4096 = 0) (low : phys.toNat < 0x40000000) :
    Complete phys size := by
  intro s _ _
  have last : frame (phys + size + 0xFFF) = phys.toNat / 4096 := by
    rw [last_eq,none_,Nat.mod_eq_of_lt (by omega)]
    omega
  refine ⟨s,?_,⟨fun p _ inside => ?_,fun q _ _ => .inl rfl⟩⟩
  · rw [blackAcpiEnsureMapped,endOf_eq,last,startOf_eq,mapPages,if_neg (BitVec.lt_irrefl _)]
  · obtain ⟨b,above,under,_⟩ := inside
    omega

end Range

end BlackOS.Acpi
