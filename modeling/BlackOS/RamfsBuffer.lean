import BlackOS.RamfsContract

/-! Where a write goes in a file's buffer, and what a file shows where no write has been.
The end of a write is a 32-bit sum, and nothing clears the bytes between the end of a file
and a write beyond it. -/
namespace BlackOS.Ramfs
open BlackOS.Library.Ram BlackOS.Library.Run

/-- A call that fails without a store, or stores below the capacity only. -/
def Contained (e : Entry) (o : Outcome) : Prop :=
  (o.result = -1 ∧ o.entry = e ∧ o.stores = []) ∨
    (o.entry.capacity ≤ blackRamfsMaxFilesize ∧
      ∀ c ∈ o.stores, ∀ i : Word, i - c.1 < c.2 → i < o.entry.capacity)

theorem copied_below (e e' : Entry) (needed : Word) (kmalloc : Option Block) (copied : List (Word × Word))
    (grown : Grown e e' needed kmalloc copied) (c : Word × Word) (listed : c ∈ copied) (i : Word)
    (inside : i - c.1 < c.2) : i < e'.capacity := by
  have bounds := (sound_bounds e' grown.sound).1
  rcases grown.origin with ⟨_,_,none⟩ | ⟨_,_,_,_,only⟩
  · rw [none] at listed
    cases listed
  · have shifted : i - 0 = i := BitVec.sub_zero i
    rw [only c listed,shifted,← grown.length_eq] at inside
    rw [BitVec.lt_def] at inside ⊢
    exact Nat.lt_of_lt_of_le inside (BitVec.le_def.mp bounds)

theorem write_contained (e : Entry) (sound : Sound e) (off sz : Word) (buf : Block)
    (kmalloc : Option Block) :
    ∃ o, blackRamfsWrite e off sz buf kmalloc = some o ∧ (Contained e o ↔
      off.toNat + sz.toNat < 2^32 ∨ blackRamfsMaxFilesize < off + sz ∨
        (e.capacity < off + sz ∧ kmalloc = none)) := by
  rcases write_outcome e sound off sz buf kmalloc with ⟨why,failed⟩ | ⟨e',copied,fits,grown,written⟩
  · exact ⟨_,failed,fun _ => .inr why,fun _ => .inl ⟨rfl,rfl,rfl⟩⟩
  · have bounds := sound_bounds e' grown.sound
    refine ⟨_,written,fun contained => ?_,fun condition => ?_⟩
    · left
      by_contra passes
      have wide : 2^32 ≤ off.toNat + sz.toNat := by omega
      -- the last offset of all is among those copied to
      have last : (4294967295 : Word) - off < sz := by
        have top : (4294967295 : Word).toNat = 4294967295 := rfl
        have small := off.isLt
        rw [BitVec.lt_def,BitVec.toNat_sub_of_le (by rw [BitVec.le_def]; omega),top]
        omega
      rcases contained with ⟨_,_,none⟩ | ⟨_,below⟩
      · exact absurd none (by simp)
      · have inside := below (off,sz) (by simp) 4294967295 last
        have limit : ¬ (4294967295 : Word).toNat < blackRamfsMaxFilesize.toNat := by decide
        exact limit (Nat.lt_of_lt_of_le (BitVec.lt_def.mp inside) (BitVec.le_def.mp bounds.2))
    · right
      refine ⟨bounds.2,fun c listed i inside => ?_⟩
      rcases List.mem_append.mp listed with early | final
      · exact copied_below e e' _ kmalloc copied grown c early i inside
      · rw [List.mem_singleton.mp final] at inside
        rcases condition with exact_ | large | ⟨more,none⟩
        · have sum : (off + sz).toNat = off.toNat + sz.toNat := BitVec.toNat_add_of_lt exact_
          have room := grown.room
          have bound := i.isLt
          rw [BitVec.le_def,sum] at room
          rw [BitVec.lt_def,BitVec.toNat_sub] at inside
          rw [BitVec.lt_def]
          dsimp only at inside ⊢
          omega
        · exact absurd large (BitVec.not_lt.mpr fits)
        · rcases grown.origin with ⟨enough,_,_⟩ | ⟨_,_,given,_⟩
          · exact absurd more (BitVec.not_lt.mpr enough)
          · rw [none] at given
            cases given

/-- Every entry of a reachable file system is sound, whatever the writes. -/
theorem step_sound (s : System) (sound : ∀ f, Sound (s.tree.entries f)) (c : Call) (s' : System)
    (step : s.step c = some s') (g : Nat) : Sound (s'.tree.entries g) := by
  rcases step_cases s c s' step with rfl | ⟨n,name,type,_,_,rfl,few⟩ |
    ⟨f,r,kmalloc,o,_,_,_,written,rfl⟩ | ⟨f,_,_,rfl⟩
  · exact sound g
  · dsimp only
    rw [create_entries s.tree n name type few g]
    split
    · exact sound n
    · split
      · exact sound_zero
      · exact sound g
  · obtain ⟨o',done,kept⟩ := write_sound _ (sound f) r.off r.sz r.buf kmalloc
    obtain rfl := Option.some.inj (done.symm.trans written)
    rw [System.written]
    dsimp only
    by_cases same : g = f
    · rw [same,Function.update_self]
      exact kept
    · rw [Function.update_of_ne same]
      exact sound g
  · dsimp only
    by_cases same : g = f
    · rw [same,Function.update_self]
      exact (truncate_tracks _ (sound f)).sound
    · rw [Function.update_of_ne same]
      exact sound g

/-- In every reachable file system, a write stays in the buffer exactly when its end is not
taken round the 32 bits, or fails as it is. -/
theorem writes_contained (calls : List Call) (s : System)
    (run : Steps (fun s c s' => s.step c = some s') System.start calls s) (f : Nat) (off sz : Word)
    (buf : Block) (kmalloc : Option Block) :
    ∃ o, blackRamfsWrite (s.tree.entries f) off sz buf kmalloc = some o ∧
      (Contained (s.tree.entries f) o ↔
        off.toNat + sz.toNat < 2^32 ∨ blackRamfsMaxFilesize < off + sz ∨
          ((s.tree.entries f).capacity < off + sz ∧ kmalloc = none)) := by
  have sound := run.invariant (fun s => ∀ f, Sound (s.tree.entries f))
    (fun f => (start_inv.files f).sound) fun s c s' sound step => step_sound s sound c s' step
  exact write_contained _ (sound f) off sz buf kmalloc

theorem sample_steps : ∃ s, Steps (fun s c s' => s.step c = some s') System.start
    [.create 0 [0x61] 1 true] s ∧ s.tree.IsFile 1 ∧ s.tree.entries 1 = {Entry.zero with name := [0x61], flags := 1} := by
  exact ⟨_,.snoc [] _ _ _ .nil rfl,by decide,rfl⟩

theorem writes_contained_sample : ∃ s, Steps (fun s c s' => s.step c = some s') System.start
    [.create 0 [0x61] 1 true] s ∧ s.tree.IsFile 1 ∧
    ∃ o, blackRamfsWrite (s.tree.entries 1) 3 2 (fun _ => 0x41) (some fun _ => 0x55) = some o ∧
      Contained (s.tree.entries 1) o := by
  obtain ⟨s,run,file,_⟩ := sample_steps
  obtain ⟨o,written,contained⟩ := writes_contained _ s run 1 3 2 (fun _ => 0x41) (some fun _ => 0x55)
  exact ⟨s,run,file,o,written,contained.mpr (.inl (by decide))⟩

/-- One byte written to the last offset of an empty file has its end at 0, and is stored
below no capacity. -/
theorem write_past_buffer : ∃ s, Steps (fun s c s' => s.step c = some s') System.start
    [.create 0 [0x61] 1 true] s ∧ s.tree.IsFile 1 ∧
    ∃ o, blackRamfsWrite (s.tree.entries 1) 0xFFFFFFFF 1 (fun _ => 0x41) none = some o ∧
      o.result = 1 ∧ ¬ Contained (s.tree.entries 1) o := by
  obtain ⟨s,run,file,entry⟩ := sample_steps
  obtain ⟨o,written,contained⟩ := write_contained (s.tree.entries 1)
    (by rw [entry]; exact sound_zero) 0xFFFFFFFF 1 (fun _ => 0x41) none
  refine ⟨s,run,file,o,written,?_,?_⟩
  · rw [entry] at written
    rw [← Option.some.inj written]
    rfl
  · rw [contained,entry]
    decide

/-- A position below the length that no write has covered reads as 0. -/
def Clear (s : System) : Prop :=
  ∀ f, ∀ i : Word, i < (s.tree.entries f).length → latest (s.log f) i = none →
    blackRamfsRead (s.tree.entries f) i 1 = ([0],1)

/-- The same, of the bytes of the buffer. -/
def Zeroed (e : Entry) (log : List Record) : Prop :=
  ∀ i : Word, i.toNat < e.length.toNat → latest log i = none → ∀ d, e.data = some d → d i = 0

/-- The buffer that a write would go to, the present one or the block that `kmalloc`
returns, is already 0 between the end of the file and the start of the write. -/
def Blank (e : Entry) (r : Record) (kmalloc : Option Block) : Prop :=
  r.off + r.sz ≤ blackRamfsMaxFilesize →
    ∀ d, (if r.off + r.sz ≤ e.capacity then e.data else kmalloc) = some d →
      ∀ i : Word, e.length.toNat ≤ i.toNat → i.toNat < r.off.toNat → d i = 0

theorem read_one (e : Entry) (sound : Sound e) (i : Word) (low : i < e.length) :
    ∃ d, e.data = some d ∧ blackRamfsRead e i 1 = ([d i],1) := by
  have below := BitVec.lt_def.mp low
  obtain ⟨length,result,bytes⟩ := read_bytes e sound i 1
  have one : (1 : Word).toNat = 1 := rfl
  have single : (blackRamfsRead e i 1).1.length = 1 := by
    rw [length,one]
    omega
  obtain ⟨d,data,here⟩ := bytes 0 (by omega)
  have start : i + word 0 = i := BitVec.add_zero i
  rw [start] at here
  obtain ⟨b,only⟩ := List.length_eq_one_iff.mp single
  rw [only] at here
  refine ⟨d,data,Prod.ext ?_ ?_⟩
  · rw [only]
    exact congrArg (fun b => [b]) (Option.some.inj here)
  · rw [result,single]
    rfl

theorem clear_zeroed (s : System) (inv : s.Inv) :
    Clear s ↔ ∀ f, Zeroed (s.tree.entries f) (s.log f) := by
  refine forall_congr' fun f => forall_congr' fun i => ?_
  refine forall_congr' fun low => forall_congr' fun _ => ?_
  obtain ⟨d,data,read⟩ := read_one _ (inv.files f).sound i low
  rw [read,data]
  refine ⟨fun zero d' same => ?_,fun zero => ?_⟩
  · obtain rfl := Option.some.inj same
    exact List.singleton_inj.mp (congrArg Prod.fst zero)
  · rw [zero d rfl]

/-- Past the old end the bytes of the grown buffer are those it was given. -/
theorem grown_past (e e' : Entry) (needed : Word) (kmalloc : Option Block) (copied : List (Word × Word))
    (grown : Grown e e' needed kmalloc copied) (d : Block) (data : e'.data = some d) :
    ∃ d₀, (if needed ≤ e.capacity then e.data else kmalloc) = some d₀ ∧
      ∀ i : Word, e.length.toNat ≤ i.toNat → d i = d₀ i := by
  rcases grown.origin with ⟨enough,same,_⟩ | ⟨junk,more,given,new,_⟩
  · rw [if_pos enough,← same]
    exact ⟨d,data,fun _ _ => rfl⟩
  · rw [if_neg (BitVec.not_le.mpr more)]
    refine ⟨junk,given,fun i above => ?_⟩
    obtain rfl := Option.some.inj (data.symm.trans new)
    cases e.data with
    | none => rfl
    | some old =>
      have zero : (0 : Word).toNat = 0 := rfl
      exact copyTo_outside junk 0 e.length old i (by omega) (by omega)

/-- The buffer after a write, away from the write: the old bytes, and past the old end the
bytes that the buffer was given. -/
structure Filled (e : Entry) (r : Record) (kmalloc : Option Block) (e' : Entry) (d : Block) : Prop where
  data : e'.data = some d
  length : ∀ i : Word, i.toNat < e'.length.toNat ↔
    i.toNat < r.off.toNat + r.sz.toNat ∨ i.toNat < e.length.toNat
  old : ∀ i : Word, ¬ r.Covers i → i.toNat < e.length.toNat → ∃ d', e.data = some d' ∧ d i = d' i
  past : ∃ d₀, (if r.off + r.sz ≤ e.capacity then e.data else kmalloc) = some d₀ ∧
    ∀ i : Word, ¬ r.Covers i → e.length.toNat ≤ i.toNat → d i = d₀ i

theorem write_filled (e : Entry) (sound : Sound e) (r : Record) (kmalloc : Option Block)
    (fits : r.off.toNat + r.sz.toNat < 2^32) (o : Outcome)
    (written : blackRamfsWrite e r.off r.sz r.buf kmalloc = some o) (success : o.result ≠ -1) :
    r.off + r.sz ≤ blackRamfsMaxFilesize ∧
      ((o.entry.data = none ∧ r.off.toNat + r.sz.toNat = 0) ∨ ∃ d, Filled e r kmalloc o.entry d) := by
  have sum : (r.off + r.sz).toNat = r.off.toNat + r.sz.toNat := BitVec.toNat_add_of_lt fits
  rcases write_outcome e sound r.off r.sz r.buf kmalloc with ⟨_,failed⟩ | ⟨e',copied,end_,grown,done⟩
  · obtain rfl := Option.some.inj (failed.symm.trans written)
    exact absurd rfl success
  · obtain rfl := Option.some.inj (done.symm.trans written)
    refine ⟨end_,?_⟩
    rcases grown.sound with ⟨data,capacity,_⟩ | ⟨d,data,_⟩
    · left
      have room := BitVec.le_def.mp grown.room
      have none : (0 : Word).toNat = 0 := rfl
      rw [capacity,sum] at room
      exact ⟨by rw [data]; rfl,by omega⟩
    · right
      have outside : ∀ i : Word, ¬ r.Covers i → copyTo d r.off r.sz r.buf i = d i := by
        intro i apart
        refine copyTo_outside d r.off r.sz r.buf i fits ?_
        by_contra neither
        exact apart ⟨by omega,by omega⟩
      refine ⟨copyTo d r.off r.sz r.buf,by rw [data]; rfl,fun i => ?_,fun i apart low => ?_,?_⟩
      · dsimp only
        split
        · rename_i longer
          have above := BitVec.lt_def.mp longer
          rw [sum] at above ⊢
          omega
        · rename_i shorter
          have below := BitVec.le_def.mp (BitVec.not_lt.mp shorter)
          rw [sum] at below
          omega
      · rcases sound with ⟨_,_,empty⟩ | ⟨d',before,_⟩
        · rw [empty] at low
          exact absurd low (Nat.not_lt_zero _)
        · obtain ⟨d₁,new,same⟩ := grown_bytes e e' _ kmalloc copied grown d' before i low
          obtain rfl := Option.some.inj (data.symm.trans new)
          exact ⟨d',before,(outside i apart).trans same⟩
      · obtain ⟨d₀,source,past⟩ := grown_past e e' _ kmalloc copied grown d data
        exact ⟨d₀,source,fun i apart above => (outside i apart).trans (past i above)⟩

theorem write_zeroed (e : Entry) (log : List Record) (tracks : Tracks e log) (zeroed : Zeroed e log)
    (r : Record) (kmalloc : Option Block) (fits : r.off.toNat + r.sz.toNat < 2^32) (o : Outcome)
    (written : blackRamfsWrite e r.off r.sz r.buf kmalloc = some o) (success : o.result ≠ -1) :
    Zeroed o.entry (r :: log) ↔ Blank e r kmalloc := by
  obtain ⟨end_,⟨data,empty⟩ | ⟨d,filled⟩⟩ := write_filled e tracks.sound r kmalloc fits o written success
  · refine ⟨fun _ _ d _ i _ before => ?_,fun _ i _ _ d there => ?_⟩
    · omega
    · rw [data] at there
      cases there
  · obtain ⟨d₀,source,past⟩ := filled.past
    refine ⟨fun zero _ d' same i above before => ?_,fun blank i low uncovered d' there => ?_⟩
    · obtain rfl := Option.some.inj (source.symm.trans same)
      have apart : ¬ r.Covers i := fun covers => absurd covers.1 (by omega)
      have unseen : latest (r :: log) i = none := by
        rw [latest,if_neg apart]
        cases seen : latest log i with
        | none => rfl
        | some b =>
          have inside := latest_extent log i b seen
          have extent_ := tracks.length
          omega
      rw [← past i apart above]
      exact zero i ((filled.length i).mpr (.inl (by omega))) unseen d filled.data
    · obtain rfl := Option.some.inj (filled.data.symm.trans there)
      have apart : ¬ r.Covers i := by
        intro covers
        rw [latest,if_pos covers] at uncovered
        cases uncovered
      rw [latest,if_neg apart] at uncovered
      by_cases old : i.toNat < e.length.toNat
      · obtain ⟨dOld,before,same⟩ := filled.old i apart old
        rw [same]
        exact zeroed i old uncovered dOld before
      · have inside := (filled.length i).mp low
        have before : i.toNat < r.off.toNat := by
          by_contra after
          exact apart ⟨by omega,by omega⟩
        rw [past i apart (by omega)]
        exact blank end_ d₀ source i (by omega) before

theorem write_step_zeroed (s : System) (inv : s.Inv) (zeroed : ∀ g, Zeroed (s.tree.entries g) (s.log g))
    (f : Nat) (r : Record) (kmalloc : Option Block) (fits : r.off.toNat + r.sz.toNat < 2^32) (o : Outcome)
    (written : blackRamfsWrite (s.tree.entries f) r.off r.sz r.buf kmalloc = some o) :
    (∀ g, Zeroed ((s.written f r o).tree.entries g) ((s.written f r o).log g)) ↔
      Blank (s.tree.entries f) r kmalloc := by
  have tracks := inv.files f
  by_cases failed : o.result = -1
  · rcases write_outcome _ tracks.sound r.off r.sz r.buf kmalloc with ⟨why,same⟩ | ⟨e',copied,end_,grown,done⟩
    · obtain rfl := Option.some.inj (same.symm.trans written)
      rw [System.written,if_pos rfl,Function.update_eq_self]
      refine ⟨fun _ end_ d source => ?_,fun _ => zeroed⟩
      rcases why with large | ⟨more,none⟩
      · exact absurd large (BitVec.not_lt.mpr end_)
      · rw [if_neg (BitVec.not_le.mpr more),none] at source
        cases source
    · rcases write_tracks _ _ tracks r.off r.sz r.buf kmalloc fits with ⟨_,stopped⟩ | ⟨o',_,_,again,success,_⟩
      · have stores := congrArg Outcome.stores (Option.some.inj (stopped.symm.trans done))
        exact absurd stores (by simp)
      · obtain rfl := Option.some.inj (again.symm.trans written)
        exact absurd failed success
  · have exactly := write_zeroed _ _ tracks (zeroed f) r kmalloc fits o written failed
    rw [System.written,if_neg failed]
    refine ⟨fun after => exactly.mp ?_,fun blank g => ?_⟩
    · have here := after f
      dsimp only at here
      rw [Function.update_self,Function.update_self] at here
      exact here
    · dsimp only
      by_cases same : g = f
      · rw [same,Function.update_self,Function.update_self]
        exact exactly.mpr blank
      · rw [Function.update_of_ne same,Function.update_of_ne same]
        exact zeroed g

/-- A call whose write, if it makes one, ends within the offsets and leaves no gap behind it
that is not already 0. -/
def CarefulNext (s : System) (c : Call) (s' : System) : Prop :=
  c.Fits s ∧ (∀ f r kmalloc, c.writing s = some (f,r,kmalloc) → Blank (s.tree.entries f) r kmalloc) ∧
    s.step c = some s'

theorem zeroed_empty (e : Entry) (empty : e.length = 0) : Zeroed e [] := by
  intro i low
  rw [empty] at low
  exact absurd low (Nat.not_lt_zero _)

theorem careful_zeroed (s : System) (inv : s.Inv) (zeroed : ∀ g, Zeroed (s.tree.entries g) (s.log g))
    (c : Call) (s' : System) (next : CarefulNext s c s') (g : Nat) :
    Zeroed (s'.tree.entries g) (s'.log g) := by
  obtain ⟨fits,blank,step⟩ := next
  rcases step_cases s c s' step with rfl | ⟨n,name,type,_,_,rfl,few⟩ |
    ⟨f,r,kmalloc,o,_,writing,_,written,rfl⟩ | ⟨f,_,_,rfl⟩
  · exact zeroed g
  · dsimp only
    rw [create_entries s.tree n name type few g]
    split
    · rename_i parent
      rw [parent]
      exact zeroed n
    · split
      · rename_i child
        rw [child,inv.fresh _ (Nat.le_refl _)]
        exact zeroed_empty _ rfl
      · exact zeroed g
  · exact (write_step_zeroed s inv zeroed f r kmalloc (fits f r kmalloc writing) o written).mpr
      (blank f r kmalloc writing) g
  · dsimp only
    by_cases same : g = f
    · rw [same,Function.update_self,Function.update_self]
      exact zeroed_empty _ rfl
    · rw [Function.update_of_ne same,Function.update_of_ne same]
      exact zeroed g

/-- In a run of careful calls every position that no write has covered reads as 0, and in
every state of such a run a write keeps that exactly when the gap before it is 0. -/
theorem holes_clear (calls : List Call) (s : System) (run : Steps CarefulNext System.start calls s) :
    Clear s ∧ ∀ c s' f r kmalloc, c.Fits s → c.writing s = some (f,r,kmalloc) → s.step c = some s' →
      (Clear s' ↔ Blank (s.tree.entries f) r kmalloc) := by
  obtain ⟨inv,zeroed⟩ := run.invariant
    (fun s => s.Inv ∧ ∀ g, Zeroed (s.tree.entries g) (s.log g))
    ⟨start_inv,fun g => zeroed_empty _ (by
      have tracks := (start_inv.files g).length
      exact BitVec.eq_of_toNat_eq tracks)⟩
    fun s c s' held next => ⟨step_inv s held.1 c next.1 s' next.2.2,careful_zeroed s held.1 held.2 c s' next⟩
  refine ⟨(clear_zeroed s inv).mpr zeroed,fun c s' f r kmalloc fits writing step => ?_⟩
  rw [clear_zeroed s' (step_inv s inv c fits s' step)]
  obtain ⟨o,_,_,written,rfl⟩ := step_writing s c s' step f r kmalloc writing
  exact write_step_zeroed s inv zeroed f r kmalloc (fits f r kmalloc writing) o written

theorem holes_clear_sample : ∃ s, Steps CarefulNext System.start [.create 0 [0x61] 1 true,
    .append 1 2 (fun _ => 0x41) (some fun _ => 0x55)] s ∧ Clear s := by
  obtain ⟨s,run⟩ : ∃ s, Steps CarefulNext System.start [.create 0 [0x61] 1 true,
      .append 1 2 (fun _ => 0x41) (some fun _ => 0x55)] s := by
    refine ⟨_,.snoc [_] _ _ _ (.snoc [] _ _ _ .nil ⟨nofun,nofun,rfl⟩) ⟨?_,?_,rfl⟩⟩
    · intro f r kmalloc writing
      cases writing
      decide
    · intro f r kmalloc writing
      cases writing
      exact fun _ d _ i above before => absurd before (Nat.not_lt.mpr above)
  exact ⟨s,run,(holes_clear _ s run).1⟩

/-- One byte written at offset 1 of an empty file leaves what was in the block at offset 0. -/
theorem hole_shows_block : ∃ s, Steps (fun s c s' => s.step c = some s') System.start
    [.create 0 [0x61] 1 true,.write 1 1 1 (fun _ => 0x41) (some fun _ => 0x55)] s ∧
    s.tree.IsFile 1 ∧ latest (s.log 1) 0 = none ∧ blackRamfsRead (s.tree.entries 1) 0 1 = ([0x55],1) ∧
    ¬ Clear s := by
  refine ⟨_,.snoc [_] _ _ _ (.snoc [] _ _ _ .nil rfl) rfl,by decide,by decide,by decide,fun clear => ?_⟩
  have read := clear 1 0 (by decide) (by decide)
  exact absurd read (by decide)

end BlackOS.Ramfs
