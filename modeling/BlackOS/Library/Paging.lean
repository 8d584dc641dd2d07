import BlackOS.Library.Ram

/-! Two-level 32-bit paging over byte memory: a directory frame of 1024 entries, tables
of 1024 entries, pages of 4096 bytes. A directory whose last entry names itself makes
its tables visible in the last four megabytes. -/
namespace BlackOS.Library.Paging
open BlackOS.Library.Ram

def present (e : Word) : Bool := e.getLsbD 0

def frame (e : Word) : Nat := e.toNat / 4096

def address (f k : Nat) : Word := word (f * 4096 + k)

def entry (m : Memory) (f i : Nat) : Word := read32 m (address f (4 * i))

def setEntry (m : Memory) (f i : Nat) (e : Word) : Memory := write32 m (address f (4 * i)) e

/-- The physical address of a virtual one, if its page is mapped. -/
def translate (m : Memory) (dir : Nat) (v : Word) : Option Word :=
  let pde := entry m dir (v.toNat / 2^22)
  if present pde then
    let pte := entry m (frame pde) (v.toNat / 4096 % 1024)
    if present pte then some (address (frame pte) (v.toNat % 4096)) else none
  else none

/-- The last directory entry names the directory itself. -/
def Recursive (m : Memory) (dir : Nat) : Prop :=
  present (entry m dir 1023) = true ∧ frame (entry m dir 1023) = dir

/-- Only the last entry matters. -/
theorem Recursive.kept {m m' : Memory} {dir dir' : Nat} (recursive : Recursive m dir) (root : dir' = dir)
    (last : entry m' dir' 1023 = entry m dir 1023) : Recursive m' dir' := by
  unfold Recursive
  rw [last,root]
  exact recursive

theorem frame_lt (e : Word) : frame e < 2^20 := by
  have bound := e.isLt
  unfold frame
  omega

theorem address_toNat (f k : Nat) (low : f < 2^20) (inside : k < 4096) :
    (address f k).toNat = f * 4096 + k :=
  word_toNat _ (by omega)

theorem address_inj (f k f' k' : Nat) (low : f < 2^20) (inside : k < 4096) (low' : f' < 2^20)
    (inside' : k' < 4096) (same : address f k = address f' k') : f = f' ∧ k = k' := by
  have value := congrArg BitVec.toNat same
  rw [address_toNat f k low inside,address_toNat f' k' low' inside'] at value
  omega

theorem entry_setEntry (m : Memory) (f i : Nat) (e : Word) : entry (setEntry m f i e) f i = e :=
  read32_write32 m _ e

theorem setEntry_sameOutside (m : Memory) (f i : Nat) (e : Word) (low : f < 2^20) (inside : i < 1024) :
    SameOutside (f * 4096 + 4 * i) (f * 4096 + 4 * i + 4) m (setEntry m f i e) := by
  have place := address_toNat f (4 * i) low (by omega)
  have same := write32_sameOutside m (address f (4 * i)) e (by omega)
  rw [place] at same
  exact same

theorem entry_setEntry_other (m : Memory) (f i g j : Nat) (e : Word) (low : f < 2^20)
    (inside : i < 1024) (low' : g < 2^20) (inside' : j < 1024) (apart : g ≠ f ∨ j ≠ i) :
    entry (setEntry m f i e) g j = entry m g j := by
  have place := address_toNat g (4 * j) low' (by omega)
  exact (setEntry_sameOutside m f i e low inside).read32 _ (by omega) (by omega)

theorem setEntry_elsewhere (m : Memory) (f i : Nat) (e : Word) (a : Word) (low : f < 2^20)
    (inside : i < 1024) (apart : a.toNat / 4096 ≠ f) : setEntry m f i e a = m a :=
  setEntry_sameOutside m f i e low inside a (by omega)

theorem entry_congr (m m' : Memory) (f i : Nat) (low : f < 2^20) (inside : i < 1024)
    (same : ∀ a : Word, a.toNat / 4096 = f → m' a = m a) : entry m' f i = entry m f i := by
  have place := address_toNat f (4 * i) low (by omega)
  exact read32_congr m m' _ (by omega) fun a above below => same a (by omega)

/-- Two frames with the same bytes hold the same entries. -/
theorem entry_copied (m m' : Memory) (f g i : Nat) (inside : i < 1024)
    (same : ∀ k < 4096, m' (address g k) = m (address f k)) : entry m' g i = entry m f i := by
  have next (h k : Nat) : address h (4 * i) + word k = address h (4 * i + k) :=
    (word_add _ _).trans (congrArg word (Nat.add_assoc _ _ _))
  have byte (k : Nat) (small : k < 4) : m' (address g (4 * i) + word k) = m (address f (4 * i) + word k) := by
    rw [next g k,next f k]
    exact same (4 * i + k) (by omega)
  have first := same (4 * i) (by omega)
  have second : m' (address g (4 * i) + 1) = m (address f (4 * i) + 1) := byte 1 (by decide)
  have third : m' (address g (4 * i) + 2) = m (address f (4 * i) + 2) := byte 2 (by decide)
  have fourth : m' (address g (4 * i) + 3) = m (address f (4 * i) + 3) := byte 3 (by decide)
  rw [entry,entry,read32,read32,first,second,third,fourth]

theorem entry_zero (m : Memory) (f i : Nat) (low : f < 2^20) (inside : i < 1024)
    (zero : ∀ a : Word, a.toNat / 4096 = f → m a = 0) : entry m f i = 0 := by
  have place := address_toNat f (4 * i) low (by omega)
  exact read32_fill m _ 0 (by omega) fun a above below => zero a (by omega)

/-- Memory given by the words in its frames. -/
def ofEntries (words : Nat → Nat → Word) : Memory :=
  fun a => byteOf (words (a.toNat / 4096) (a.toNat % 4096 / 4)) (a.toNat % 4)

theorem entry_ofEntries (words : Nat → Nat → Word) (f i : Nat) (low : f < 2^20) (inside : i < 1024) :
    entry (ofEntries words) f i = words f i := by
  have place := address_toNat f (4 * i) low (by omega)
  have byte : ∀ k < 4, ofEntries words (address f (4 * i) + word k) = byteOf (words f i) k := by
    intro k small
    have next : (address f (4 * i) + word k).toNat = f * 4096 + 4 * i + k := by
      rw [BitVec.toNat_add,word_toNat k (by omega),place]
      exact Nat.mod_eq_of_lt (by omega)
    have same : (f * 4096 + 4 * i + k) / 4096 = f := by omega
    have slot : (f * 4096 + 4 * i + k) % 4096 / 4 = i := by omega
    have rest : (f * 4096 + 4 * i + k) % 4 = k := by omega
    rw [ofEntries,next,same,slot,rest]
  have bound := (words f i).isLt
  have first := byte 0 (by decide)
  rw [show address f (4 * i) + word 0 = address f (4 * i) from BitVec.add_zero _] at first
  have second : ofEntries words (address f (4 * i) + 1) = _ := byte 1 (by decide)
  have third : ofEntries words (address f (4 * i) + 2) = _ := byte 2 (by decide)
  have fourth : ofEntries words (address f (4 * i) + 3) = _ := byte 3 (by decide)
  apply BitVec.eq_of_toNat_eq
  simp only [entry,read32,first,second,third,fourth,byteOf,BitVec.toNat_ofNat]
  omega

theorem translate_mapped (m : Memory) (dir : Nat) (v : Word)
    (table : present (entry m dir (v.toNat / 2^22)) = true)
    (page : present (entry m (frame (entry m dir (v.toNat / 2^22))) (v.toNat / 4096 % 1024)) = true) :
    translate m dir v =
      some (address (frame (entry m (frame (entry m dir (v.toNat / 2^22))) (v.toNat / 4096 % 1024)))
        (v.toNat % 4096)) := by
  simp only [translate,table,page,if_true]

/-- A table is visible in the window of the last four megabytes. -/
theorem translate_window (m : Memory) (dir i k : Nat) (recursive : Recursive m dir) (low : i < 1024)
    (table : present (entry m dir i) = true) (inside : k < 4096) :
    translate m dir (word (0xFFC00000 + i * 4096 + k)) = some (address (frame (entry m dir i)) k) := by
  have value := word_toNat (0xFFC00000 + i * 4096 + k) (by omega)
  have top : (word (0xFFC00000 + i * 4096 + k)).toNat / 2^22 = 1023 := by omega
  have middle : (word (0xFFC00000 + i * 4096 + k)).toNat / 4096 % 1024 = i := by omega
  have bottom : (word (0xFFC00000 + i * 4096 + k)).toNat % 4096 = k := by omega
  have found := translate_mapped m dir (word (0xFFC00000 + i * 4096 + k))
    (by rw [top]; exact recursive.1) (by rw [top,middle,recursive.2]; exact table)
  rw [top,middle,bottom,recursive.2] at found
  exact found

end BlackOS.Library.Paging
