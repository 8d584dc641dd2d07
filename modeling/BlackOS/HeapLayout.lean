import BlackOS.Heap
import BlackOS.Library.Tiling

/-! How a list of blocks lies in memory: the header of each block with its links
to the neighbours, and what the header stores of the source change there. -/
namespace BlackOS.Heap
open BlackOS.Library.Ram BlackOS.Library.Tiling BlackOS.LibcString

theorem headerSize_word : headerSize = word 20 := rfl

private theorem word_add_zero (a : Nat) : word a + word 0 = word a := by
  rw [word_add,Nat.add_zero]

private theorem offset_toNat (a k : Nat) (inside : k < 20) (room : a + 20 ≤ 2^32) :
    (word a + word k).toNat = a + k := by
  rw [word_add,word_toNat _ (by omega)]

/-- The memories agree at every byte outside the headers at the given addresses. -/
def SameButHeaders (addrs : List Nat) (m m' : Memory) : Prop :=
  ∀ x : Word, (∀ a ∈ addrs, x.toNat < a ∨ a + 20 ≤ x.toNat) → m' x = m x

theorem SameButHeaders.refl (addrs : List Nat) (m : Memory) : SameButHeaders addrs m m :=
  fun _ _ => rfl

theorem SameButHeaders.trans {addrs : List Nat} {a b c : Memory} (first : SameButHeaders addrs a b)
    (second : SameButHeaders addrs b c) : SameButHeaders addrs a c :=
  fun x out => (second x out).trans (first x out)

theorem SameButHeaders.mono {few many : List Nat} {m m' : Memory} (same : SameButHeaders few m m')
    (subset : ∀ a ∈ few, a ∈ many) : SameButHeaders many m m' :=
  fun x out => same x (fun a member => out a (subset a member))

theorem header_congr (m m' : Memory) (c : Nat) (room : c + 20 ≤ 2^32)
    (same : ∀ x : Word, c ≤ x.toNat → x.toNat < c + 20 → m' x = m x) :
    header m' (word c) = header m (word c) := by
  have field (k : Nat) (inside : k + 4 ≤ 20) :
      read32 m' (word c + word k) = read32 m (word c + word k) := by
    have at_ := offset_toNat c k (by omega) room
    apply read32_congr m m' _ (by omega)
    intro x low high
    exact same x (by omega) (by omega)
  have first := field 0 (by omega)
  rw [word_add_zero] at first
  apply Header.ext
  · exact first
  · exact field 4 (by omega)
  · exact field 8 (by omega)
  · exact field 12 (by omega)
  · exact field 16 (by omega)

theorem header_sameOutside {lo hi : Nat} {m m' : Memory} (same : SameOutside lo hi m m') (c : Nat)
    (room : c + 20 ≤ 2^32) (apart : c + 20 ≤ lo ∨ hi ≤ c) :
    header m' (word c) = header m (word c) :=
  header_congr m m' c room (fun x low high => same x (by omega))

theorem SameButHeaders.header {addrs : List Nat} {m m' : Memory} (same : SameButHeaders addrs m m')
    (c : Nat) (room : c + 20 ≤ 2^32) (apart : ∀ a ∈ addrs, a + 20 ≤ c ∨ c + 20 ≤ a) :
    header m' (word c) = header m (word c) := by
  apply header_congr m m' c room
  intro x low high
  apply same
  intro a member
  have clear := apart a member
  omega

section
variable (m : Memory) (a : Nat) (v : Word) (room : a + 20 ≤ 2^32)
include room

private theorem store_same (k : Nat) (inside : k + 4 ≤ 20) (addrs : List Nat) (member : a ∈ addrs) :
    SameButHeaders addrs m (write32 m (word a + word k) v) := by
  intro x out
  have clear := out a member
  have at_ := offset_toNat a k (by omega) room
  exact write32_sameOutside m _ v (by omega) x (by omega)

theorem setMagic_same (addrs : List Nat) (member : a ∈ addrs) :
    SameButHeaders addrs m (setMagic m (word a) v) := by
  have stored := store_same m a v room 0 (by omega) addrs member
  rwa [word_add_zero] at stored

theorem setSize_same (addrs : List Nat) (member : a ∈ addrs) :
    SameButHeaders addrs m (setSize m (word a) v) := store_same m a v room 4 (by omega) addrs member

theorem setFree_same (addrs : List Nat) (member : a ∈ addrs) :
    SameButHeaders addrs m (setFree m (word a) v) := store_same m a v room 8 (by omega) addrs member

theorem setNext_same (addrs : List Nat) (member : a ∈ addrs) :
    SameButHeaders addrs m (setNext m (word a) v) := store_same m a v room 12 (by omega) addrs member

theorem setPrev_same (addrs : List Nat) (member : a ∈ addrs) :
    SameButHeaders addrs m (setPrev m (word a) v) := store_same m a v room 16 (by omega) addrs member

private theorem load_other (j k : Nat) (first : j + 4 ≤ 20) (second : k + 4 ≤ 20)
    (apart : j + 4 ≤ k ∨ k + 4 ≤ j) :
    read32 (write32 m (word a + word j) v) (word a + word k) = read32 m (word a + word k) := by
  have atJ := offset_toNat a j (by omega) room
  have atK := offset_toNat a k (by omega) room
  exact (write32_sameOutside m _ v (by omega)).read32 _ (by omega) (by omega)

private theorem load_first (k : Nat) (low : 4 ≤ k) (high : k + 4 ≤ 20) :
    read32 (write32 m (word a + word k) v) (word a) = read32 m (word a) := by
  have kept := load_other m a v room k 0 high (by omega) (by omega)
  rwa [word_add_zero] at kept

private theorem load_rest (k : Nat) (low : 4 ≤ k) (high : k + 4 ≤ 20) :
    read32 (write32 m (word a) v) (word a + word k) = read32 m (word a + word k) := by
  have kept := load_other m a v room 0 k (by omega) high (by omega)
  rwa [word_add_zero] at kept

theorem header_setMagic : header (setMagic m (word a) v) (word a) =
    {header m (word a) with magic := v} := by
  apply Header.ext
  · exact read32_write32 m _ v
  · exact load_rest m a v room 4 (by omega) (by omega)
  · exact load_rest m a v room 8 (by omega) (by omega)
  · exact load_rest m a v room 12 (by omega) (by omega)
  · exact load_rest m a v room 16 (by omega) (by omega)

theorem header_setSize : header (setSize m (word a) v) (word a) =
    {header m (word a) with size := v} := by
  apply Header.ext
  · exact load_first m a v room 4 (by omega) (by omega)
  · exact read32_write32 m _ v
  · exact load_other m a v room 4 8 (by omega) (by omega) (by omega)
  · exact load_other m a v room 4 12 (by omega) (by omega) (by omega)
  · exact load_other m a v room 4 16 (by omega) (by omega) (by omega)

theorem header_setFree : header (setFree m (word a) v) (word a) =
    {header m (word a) with free := v} := by
  apply Header.ext
  · exact load_first m a v room 8 (by omega) (by omega)
  · exact load_other m a v room 8 4 (by omega) (by omega) (by omega)
  · exact read32_write32 m _ v
  · exact load_other m a v room 8 12 (by omega) (by omega) (by omega)
  · exact load_other m a v room 8 16 (by omega) (by omega) (by omega)

theorem header_setNext : header (setNext m (word a) v) (word a) =
    {header m (word a) with next := v} := by
  apply Header.ext
  · exact load_first m a v room 12 (by omega) (by omega)
  · exact load_other m a v room 12 4 (by omega) (by omega) (by omega)
  · exact load_other m a v room 12 8 (by omega) (by omega) (by omega)
  · exact read32_write32 m _ v
  · exact load_other m a v room 12 16 (by omega) (by omega) (by omega)

theorem header_setPrev : header (setPrev m (word a) v) (word a) =
    {header m (word a) with prev := v} := by
  apply Header.ext
  · exact load_first m a v room 16 (by omega) (by omega)
  · exact load_other m a v room 16 4 (by omega) (by omega) (by omega)
  · exact load_other m a v room 16 8 (by omega) (by omega) (by omega)
  · exact load_other m a v room 16 12 (by omega) (by omega) (by omega)
  · exact read32_write32 m _ v

theorem header_setMagic_apart (c : Nat) (roomC : c + 20 ≤ 2^32) (apart : a + 20 ≤ c ∨ c + 20 ≤ a) :
    header (setMagic m (word a) v) (word c) = header m (word c) :=
  (setMagic_same m a v room [a] (by simp)).header c roomC (by simpa using apart)

theorem header_setSize_apart (c : Nat) (roomC : c + 20 ≤ 2^32) (apart : a + 20 ≤ c ∨ c + 20 ≤ a) :
    header (setSize m (word a) v) (word c) = header m (word c) :=
  (setSize_same m a v room [a] (by simp)).header c roomC (by simpa using apart)

theorem header_setFree_apart (c : Nat) (roomC : c + 20 ≤ 2^32) (apart : a + 20 ≤ c ∨ c + 20 ≤ a) :
    header (setFree m (word a) v) (word c) = header m (word c) :=
  (setFree_same m a v room [a] (by simp)).header c roomC (by simpa using apart)

theorem header_setNext_apart (c : Nat) (roomC : c + 20 ≤ 2^32) (apart : a + 20 ≤ c ∨ c + 20 ≤ a) :
    header (setNext m (word a) v) (word c) = header m (word c) :=
  (setNext_same m a v room [a] (by simp)).header c roomC (by simpa using apart)

theorem header_setPrev_apart (c : Nat) (roomC : c + 20 ≤ 2^32) (apart : a + 20 ≤ c ∨ c + 20 ≤ a) :
    header (setPrev m (word a) v) (word c) = header m (word c) :=
  (setPrev_same m a v room [a] (by simp)).header c roomC (by simpa using apart)

end

def flag (free : Bool) : Word := if free then 1 else 0

def firstAddr : List Block → Word → Word
  | [],after => after
  | b::_,_ => word b.addr

def lastAddr : Word → List Block → Word
  | prev,[] => prev
  | _,b::bs => lastAddr (word b.addr) bs

def HeaderAt (m : Memory) (b : Block) (prev next : Word) : Prop :=
  header m (word b.addr) = ⟨blackHeapMagic,word b.size,flag b.free,next,prev⟩

/-- The headers of the blocks are in memory, each linked to the ones beside it;
`prev` and `after` are the links out of the first and the last. -/
def Chain (m : Memory) : Word → List Block → Word → Prop
  | _,[],_ => True
  | prev,b::bs,after => HeaderAt m b prev (firstAddr bs after) ∧ Chain m (word b.addr) bs after

theorem firstAddr_append (xs ys : List Block) (after : Word) :
    firstAddr (xs ++ ys) after = firstAddr xs (firstAddr ys after) := by
  cases xs <;> rfl

theorem chain_append (m : Memory) (prev after : Word) (xs ys : List Block) :
    Chain m prev (xs ++ ys) after ↔
      Chain m prev xs (firstAddr ys after) ∧ Chain m (lastAddr prev xs) ys after := by
  induction xs generalizing prev with
  | nil => simp [Chain,lastAddr]
  | cons b bs ih => simp only [List.cons_append,Chain,lastAddr,ih,firstAddr_append,and_assoc]

theorem chain_congr (m m' : Memory) (bs : List Block)
    (same : ∀ b ∈ bs, header m' (word b.addr) = header m (word b.addr)) (prev after : Word)
    (chain : Chain m prev bs after) : Chain m' prev bs after := by
  induction bs generalizing prev with
  | nil => trivial
  | cons b bs ih =>
    obtain ⟨here,rest⟩ := chain
    exact ⟨(same b (by simp)).trans here,ih (fun c member => same c (by simp [member])) _ rest⟩

theorem chain_member (m : Memory) (prev after : Word) (bs : List Block) (chain : Chain m prev bs after)
    (b : Block) (member : b ∈ bs) : ∃ p n, HeaderAt m b p n := by
  obtain ⟨pre,post,rfl⟩ := List.append_of_mem member
  obtain ⟨_,here⟩ := (chain_append m prev after pre (b::post)).mp chain
  exact ⟨_,_,here.1⟩

theorem SameButHeaders.chain {addrs : List Nat} {m m' : Memory} (same : SameButHeaders addrs m m')
    (lo hi : Nat) (bs : List Block) (tiles : Tiles 20 lo hi bs) (small : hi < 2^32)
    (clear : ∀ a ∈ addrs, a + 20 ≤ lo ∨ hi ≤ a) (prev after : Word) (chain : Chain m prev bs after) :
    Chain m' prev bs after := by
  apply chain_congr m m' bs _ prev after chain
  intro b member
  have bounds := tiles_bounds 20 lo hi bs tiles b member
  simp only [Block.limit] at bounds
  apply same.header b.addr (by omega)
  intro a written
  have apart := clear a written
  omega

end BlackOS.Heap
