import BlackOS.Sha256
import Mathlib.Data.List.Basic
import Mathlib.Tactic.IntervalCases

/-! The streaming SHA-256 computes the hash function of the standard, however the
message is cut into chunks. -/
namespace BlackOS.Sha256
open BlackOS.Library BlackOS.Library.Ram
open BlackOS.Library.Sha2 (Working)

section Arrays
variable {α : Type} [Inhabited α] {n : Nat} (v : Vector α n)

theorem get_set (i j : Nat) (x : α) (inside : i < n) :
    (v.set! i x)[j]! = if i = j then x else v[j]! := by
  by_cases bound : j < n
  · simp [getElem!_pos,bound,Vector.getElem_set!]
  · have apart : i ≠ j := by omega
    simp [getElem!_neg,bound,apart]

theorem get_toList (i : Nat) : v.toList[i]! = v[i]! := by
  by_cases bound : i < n
  · simp [getElem!_pos,bound]
  · simp [getElem!_neg,bound]

end Arrays

theorem rotr_rotateRight (x : Word) (n : Nat) (inside : n < 32) :
    blackRotr x n = x.rotateRight n := by
  rw [BitVec.rotateRight_def,Nat.mod_eq_of_lt inside]
  rfl

theorem sigma0_eq (x : Word) : blackSigma0 x = Sha2.bigSigma0 x := by
  simp only [blackSigma0,rotr_rotateRight x _ (by decide : 2 < 32),
    rotr_rotateRight x _ (by decide : 13 < 32),rotr_rotateRight x _ (by decide : 22 < 32),
    Sha2.bigSigma0]

theorem sigma1_eq (x : Word) : blackSigma1 x = Sha2.bigSigma1 x := by
  simp only [blackSigma1,rotr_rotateRight x _ (by decide : 6 < 32),
    rotr_rotateRight x _ (by decide : 11 < 32),rotr_rotateRight x _ (by decide : 25 < 32),
    Sha2.bigSigma1]

theorem gamma0_eq (x : Word) : blackGamma0 x = Sha2.smallSigma0 x := by
  simp only [blackGamma0,rotr_rotateRight x _ (by decide : 7 < 32),
    rotr_rotateRight x _ (by decide : 18 < 32),Sha2.smallSigma0]

theorem gamma1_eq (x : Word) : blackGamma1 x = Sha2.smallSigma1 x := by
  simp only [blackGamma1,rotr_rotateRight x _ (by decide : 17 < 32),
    rotr_rotateRight x _ (by decide : 19 < 32),Sha2.smallSigma1]

theorem bytes_joined (a b c d : Byte) :
    a.setWidth 32 <<< 24 ||| b.setWidth 32 <<< 16 ||| c.setWidth 32 <<< 8 ||| d.setWidth 32 =
      a ++ b ++ c ++ d := by
  ext i inside
  simp
  grind

theorem blockWord_eq (block : Vector Byte 64) (i : Nat) :
    blockWord block i = Sha2.words block.toList i := by
  simp only [blockWord,Sha2.words,get_toList]
  exact bytes_joined _ _ _ _

theorem loadBlock_get (block : Vector Byte 64) (t : Nat) (early : t < 16) :
    (loadBlock block)[t]! = Sha2.words block.toList t := by
  -- After n rounds the first n words are in place.
  have loop : ∀ n, n ≤ 16 → ∀ t < n,
      ((List.range n).foldl (fun w i => w.set! i (blockWord block i))
        (Vector.replicate 64 (0 : Word)))[t]! = Sha2.words block.toList t := by
    intro n
    induction n with
    | zero =>
      intro bound t before
      omega
    | succ n ih =>
      intro bound t before
      rw [List.range_succ,List.foldl_append,List.foldl_cons,List.foldl_nil,get_set _ _ _ _ (by omega)]
      by_cases here : n = t
      · rw [if_pos here,blockWord_eq,here]
      · rw [if_neg here]
        exact ih (by omega) t (by omega)
  exact loop 16 (Nat.le_refl 16) t early

theorem extendBlock_get (m : Nat → Word) (w : Vector Word 64) (loaded : ∀ t < 16, w[t]! = m t)
    (t : Nat) (inside : t < 64) : (extendBlock w)[t]! = Sha2.schedule m t := by
  -- Each round adds one word of the schedule; it reads earlier words only.
  have loop : ∀ n, n ≤ 48 → ∀ t < n + 16,
      ((List.range' 16 n).foldl extendStep w)[t]! = Sha2.schedule m t := by
    intro n
    induction n with
    | zero =>
      intro bound t before
      rw [Sha2.schedule_early m t (by omega)]
      exact loaded t (by omega)
    | succ n ih =>
      intro bound t before
      have earlier := ih (by omega)
      rw [List.range'_concat,List.foldl_append,List.foldl_cons,List.foldl_nil,extendStep,
        get_set _ _ _ _ (by omega)]
      by_cases here : 16 + 1 * n = t
      · rw [if_pos here,← here,Nat.one_mul,Nat.add_comm 16 n,Sha2.schedule_late,
          earlier _ (by omega),earlier _ (by omega),earlier _ (by omega),earlier _ (by omega),
          gamma0_eq,gamma1_eq]
        rfl
      · rw [if_neg here]
        exact earlier t (by omega)
  exact loop 48 (Nat.le_refl 48) t inside

theorem transform_compress (s : Vector Word 8) (block : Vector Byte 64) :
    hashValue (blackSha256Transform s block) =
      Sha2.compress (hashValue s) (Sha2.words block.toList) := by
  have words := extendBlock_get (Sha2.words block.toList) (loadBlock block) (loadBlock_get block)
  have rounds : ∀ v, (List.range 64).foldl (roundStep (extendBlock (loadBlock block))) v =
      (List.range 64).foldl (Sha2.round (Sha2.schedule (Sha2.words block.toList))) v := by
    intro v
    refine List.foldl_ext _ _ v ?_
    intro v t member
    simp only [roundStep,Sha2.round,sigma0_eq,sigma1_eq,
      words t (List.mem_range.mp member)]
    rfl
  simp only [blackSha256Transform,Sha2.compress,hashValue,rounds]
  rfl

/-- Every buffer write so far was made with `black_buflen` below 64 and inside the buffer. -/
def Ctx.Safe (ctx : Ctx) : Prop := ∀ write ∈ ctx.writes, write.1 < 64 ∧ write.2 < 64

/-- From `ctx` to `c` the bytes have been written to the buffer from index `n` on. -/
structure Wrote (ctx c : Ctx) (n : Nat) (bytes : List Byte) : Prop where
  state : c.state = ctx.state
  buflen : c.buflen = ctx.buflen
  total : c.total = ctx.total
  content : c.buffer.toList.take (n + bytes.length) = ctx.buffer.toList.take n ++ bytes
  safe : ctx.Safe → c.Safe

theorem wrote_nothing (ctx : Ctx) (n : Nat) : Wrote ctx ctx n [] :=
  ⟨rfl,rfl,rfl,by rw [List.length_nil,Nat.add_zero,List.append_nil],fun safe => safe⟩

theorem wrote_more (ctx c d : Ctx) (n : Nat) (xs ys : List Byte) (first : Wrote ctx c n xs)
    (second : Wrote c d (n + xs.length) ys) : Wrote ctx d n (xs ++ ys) where
  state := second.state.trans first.state
  buflen := second.buflen.trans first.buflen
  total := second.total.trans first.total
  content := by
    rw [List.length_append,← Nat.add_assoc,second.content,first.content,List.append_assoc]
  safe := fun safe => second.safe (first.safe safe)

theorem store_wrote (ctx : Ctx) (i : Nat) (x : Byte) (inside : i < 64) (room : ctx.buflen < 64) :
    ∃ c, ctx.store i x = some c ∧ Wrote ctx c i [x] := by
  refine ⟨_,dif_pos inside,rfl,rfl,rfl,?_,?_⟩
  · have size : i < ctx.buffer.toList.length := by
      rw [Vector.length_toList]
      exact inside
    rw [Vector.toList_set,List.length_singleton,List.take_succ_eq_append_getElem (by
      rw [List.length_set]
      exact size),List.getElem_set_self,List.take_set_of_le (Nat.le_refl i)]
  · intro safe write member
    rcases List.mem_append.mp member with old | new
    · exact safe write old
    · rw [List.mem_singleton.mp new]
      exact ⟨room,inside⟩

/-- A loop that stores one byte after the other from index `n` on. -/
theorem stores_wrote (ctx : Ctx) (n : Nat) (f : Nat → Byte) (count : Nat) (fits : n + count ≤ 64)
    (room : ctx.buflen < 64) (index : Nat → Nat → Nat) (places : ∀ i, index ctx.buflen i = n + i) :
    ∃ c, (List.range count).foldlM (fun c i => c.store (index c.buflen i) (f i)) ctx = some c ∧
      Wrote ctx c n ((List.range count).map f) := by
  induction count with
  | zero => exact ⟨ctx,rfl,wrote_nothing ctx n⟩
  | succ count ih =>
    obtain ⟨c,run,wrote⟩ := ih (by omega)
    have place : index c.buflen count = n + count := by
      rw [wrote.buflen]
      exact places count
    obtain ⟨d,stored,last⟩ := store_wrote c (n + count) (f count) (by omega)
      (by rw [wrote.buflen]; exact room)
    refine ⟨d,?_,?_⟩
    · rw [List.range_succ,List.foldlM_append,run]
      simp only [Option.bind_eq_bind,Option.bind_some,List.foldlM_cons,List.foldlM_nil,place,stored]
      rfl
    · rw [List.range_succ,List.map_append]
      refine wrote_more ctx c d n _ _ wrote ?_
      rw [List.length_map,List.length_range]
      exact last

theorem copyIn_wrote (data : List Byte) (offset copy : Nat) (ctx : Ctx)
    (fits : ctx.buflen + copy ≤ 64) (room : ctx.buflen < 64) (inside : offset + copy ≤ data.length) :
    ∃ c, copyIn data offset copy ctx = some c ∧
      Wrote ctx c ctx.buflen ((data.drop offset).take copy) := by
  obtain ⟨c,run,wrote⟩ := stores_wrote ctx ctx.buflen (fun i => data[offset + i]!) copy fits room
    (fun n i => n + i) (fun i => rfl)
  have taken : (List.range copy).map (fun i => data[offset + i]!) = (data.drop offset).take copy := by
    apply List.ext_getElem
    · simp only [List.length_map,List.length_range,List.length_take,List.length_drop]
      omega
    · intro i left right
      have bound : offset + i < data.length := by
        rw [List.length_map,List.length_range] at left
        omega
      simp [bound]
  rw [taken] at wrote
  exact ⟨c,run,wrote⟩

/-- The context has absorbed whole blocks and holds the bytes that follow them. -/
structure Holds (ctx : Ctx) (blocks pending : List Byte) : Prop where
  whole : 64 ∣ blocks.length
  room : pending.length < 64
  size : ctx.buflen = pending.length
  content : ctx.buffer.toList.take ctx.buflen = pending
  state : hashValue ctx.state = Sha2.absorb Sha2.initial blocks
  total : ctx.total = BitVec.ofNat 64 (blocks ++ pending).length
  safe : ctx.Safe

theorem holds_init : Holds blackSha256Init [] [] where
  whole := Nat.dvd_zero 64
  room := by decide
  size := rfl
  content := rfl
  state := (Sha2.absorb_short _ _ (by decide)).symm
  total := rfl
  safe := fun write member => absurd member List.not_mem_nil

theorem flush_safe (ctx : Ctx) (safe : ctx.Safe) : ctx.flush.Safe := by
  intro write member
  exact safe write member

theorem flush_state (ctx : Ctx) (blocks block : List Byte) (whole : 64 ∣ blocks.length)
    (full : ctx.buffer.toList = block) (state : hashValue ctx.state = Sha2.absorb Sha2.initial blocks) :
    hashValue (blackSha256Transform ctx.state ctx.buffer) =
      Sha2.absorb Sha2.initial (blocks ++ block) := by
  have size : block.length = 64 := by
    rw [← full]
    exact Vector.length_toList
  have alone := Sha2.absorb_block (hashValue ctx.state) block [] size
  rw [List.append_nil,Sha2.absorb_short _ [] (by decide)] at alone
  rw [transform_compress,Sha2.absorb_append _ _ _ whole,← state,alone,full]

/-! Bytes written behind those that wait leave a full buffer, which is absorbed, or more that wait. -/
section Waiting
variable (ctx c : Ctx) (blocks pending bytes : List Byte) (held : Holds ctx blocks pending)
  (wrote : Wrote ctx c ctx.buflen bytes)
include held wrote

theorem waiting_content : c.buffer.toList.take (c.buflen + bytes.length) = pending ++ bytes := by
  rw [wrote.buflen,wrote.content,held.content]

theorem waiting_length : c.buflen + bytes.length = (pending ++ bytes).length := by
  rw [List.length_append,wrote.buflen,held.size]

theorem waiting_total : c.total + BitVec.ofNat 64 bytes.length = BitVec.ofNat 64 (blocks ++ (pending ++ bytes)).length := by
  have sum : (blocks ++ (pending ++ bytes)).length = (blocks ++ pending).length + bytes.length := by
    rw [← List.append_assoc,List.length_append]
  rw [wrote.total,held.total,sum,BitVec.ofNat_add]

theorem full_holds (full : c.buflen + bytes.length = 64) :
    Holds (Ctx.flush {c with buflen := c.buflen + bytes.length,total := c.total + BitVec.ofNat 64 bytes.length})
      (blocks ++ (pending ++ bytes)) [] where
  whole := by
    rw [List.length_append,← waiting_length ctx c blocks pending bytes held wrote,full]
    exact Nat.dvd_add held.whole (Nat.dvd_refl 64)
  room := by decide
  size := rfl
  content := rfl
  state := by
    have all : c.buffer.toList = pending ++ bytes := by
      rw [← waiting_content ctx c blocks pending bytes held wrote,full]
      exact (List.take_of_length_le (Nat.le_of_eq Vector.length_toList)).symm
    exact flush_state c blocks _ held.whole all (by rw [wrote.state]; exact held.state)
  total := by
    rw [List.append_nil]
    exact waiting_total ctx c blocks pending bytes held wrote
  safe := wrote.safe held.safe

theorem partly_holds (partly : c.buflen + bytes.length < 64) :
    Holds {c with buflen := c.buflen + bytes.length,total := c.total + BitVec.ofNat 64 bytes.length}
      blocks (pending ++ bytes) where
  whole := held.whole
  room := lt_of_eq_of_lt (waiting_length ctx c blocks pending bytes held wrote).symm partly
  size := waiting_length ctx c blocks pending bytes held wrote
  content := waiting_content ctx c blocks pending bytes held wrote
  state := by
    rw [← held.state]
    exact congrArg hashValue wrote.state
  total := waiting_total ctx c blocks pending bytes held wrote
  safe := wrote.safe held.safe

end Waiting

/-- One round of the update: some bytes are copied, and a full buffer is absorbed. -/
theorem update_round (data : List Byte) (offset copy : Nat) (ctx : Ctx) (blocks pending : List Byte)
    (held : Holds ctx blocks pending) (fits : pending.length + copy ≤ 64)
    (inside : offset + copy ≤ data.length) :
    ∃ c, copyIn data offset copy ctx = some c ∧ ∃ blocks' pending',
      (let d := {c with buflen := c.buflen + copy,total := c.total + BitVec.ofNat 64 copy}
       Holds (if d.buflen = 64 then d.flush else d) blocks' pending') ∧
      blocks' ++ pending' = blocks ++ pending ++ (data.drop offset).take copy := by
  have size := held.size
  have room := held.room
  have taken : ((data.drop offset).take copy).length = copy := by
    rw [List.length_take,List.length_drop]
    omega
  obtain ⟨c,run,wrote⟩ := copyIn_wrote data offset copy ctx (by omega) (by omega) inside
  have full := full_holds ctx c blocks pending _ held wrote
  have partly := partly_holds ctx c blocks pending _ held wrote
  have buflen := wrote.buflen
  rw [taken] at full partly
  refine ⟨c,run,?_⟩
  dsimp only
  by_cases whole : c.buflen + copy = 64
  · rw [if_pos whole]
    exact ⟨_,[],full whole,by rw [List.append_nil,List.append_assoc]⟩
  · rw [if_neg whole]
    exact ⟨blocks,_,partly (by omega),(List.append_assoc _ _ _).symm⟩

theorem updateLoop_holds (data : List Byte) (fuel : Nat) : ∀ (ctx : Ctx) (offset remaining : Nat)
    (blocks pending : List Byte), Holds ctx blocks pending → offset + remaining = data.length →
    remaining ≤ fuel → ∃ c blocks' pending', updateLoop data fuel ctx offset remaining = some c ∧
      Holds c blocks' pending' ∧ blocks' ++ pending' = blocks ++ pending ++ data.drop offset := by
  have finished : ∀ (ctx : Ctx) (offset : Nat) (blocks pending : List Byte),
      Holds ctx blocks pending → offset + 0 = data.length →
      Holds ctx blocks pending ∧ blocks ++ pending = blocks ++ pending ++ data.drop offset := by
    intro ctx offset blocks pending held inside
    rw [List.drop_of_length_le (by omega),List.append_nil]
    exact ⟨held,rfl⟩
  induction fuel with
  | zero =>
    intro ctx offset remaining blocks pending held inside enough
    obtain rfl : remaining = 0 := by omega
    exact ⟨ctx,blocks,pending,rfl,finished ctx offset blocks pending held inside⟩
  | succ fuel ih =>
    intro ctx offset remaining blocks pending held inside enough
    cases remaining with
    | zero => exact ⟨ctx,blocks,pending,rfl,finished ctx offset blocks pending held inside⟩
    | succ rest =>
      have size := held.size
      have room := held.room
      generalize copied : (if rest + 1 < 64 - ctx.buflen then rest + 1 else 64 - ctx.buflen) = copy
      have bounds : 0 < copy ∧ copy ≤ rest + 1 ∧ pending.length + copy ≤ 64 := by
        split at copied
        · omega
        · omega
      obtain ⟨c,run,blocks',pending',next,joined⟩ := update_round data offset copy ctx blocks pending
        held (by omega) (by omega)
      obtain ⟨d,blocks'',pending'',rounds,done,whole⟩ := ih _ (offset + copy) (rest + 1 - copy)
        blocks' pending' next (by omega) (by omega)
      refine ⟨d,blocks'',pending'',?_,done,?_⟩
      · rw [updateLoop,copied,run]
        · exact rounds
        · exact Nat.succ_ne_zero rest
      · rw [whole,joined,List.append_assoc (blocks ++ pending),← List.drop_drop,
          List.take_append_drop]

theorem update_holds (ctx : Ctx) (data blocks pending : List Byte) (held : Holds ctx blocks pending) :
    ∃ c blocks' pending', blackSha256Update ctx data = some c ∧ Holds c blocks' pending' ∧
      blocks' ++ pending' = blocks ++ pending ++ data :=
  updateLoop_holds data data.length ctx 0 data.length blocks pending held (Nat.zero_add _)
    (Nat.le_refl _)

theorem updates_hold (chunks : List (List Byte)) : ∀ (ctx : Ctx) (blocks pending : List Byte),
    Holds ctx blocks pending → ∃ c blocks' pending', chunks.foldlM blackSha256Update ctx = some c ∧
      Holds c blocks' pending' ∧ blocks' ++ pending' = blocks ++ pending ++ chunks.flatten := by
  induction chunks with
  | nil =>
    intro ctx blocks pending held
    exact ⟨ctx,blocks,pending,rfl,held,(List.append_nil _).symm⟩
  | cons chunk chunks ih =>
    intro ctx blocks pending held
    obtain ⟨c,blocks',pending',run,next,joined⟩ := update_holds ctx chunk blocks pending held
    obtain ⟨d,blocks'',pending'',rest,done,whole⟩ := ih c blocks' pending' next
    refine ⟨d,blocks'',pending'',?_,done,?_⟩
    · rw [List.foldlM_cons,run]
      exact rest
    · rw [whole,joined,List.flatten_cons,List.append_assoc]

theorem zeroFill_spec (limit : Nat) (fits : limit ≤ 64) (ctx : Ctx) (below : ctx.buflen ≤ limit)
    (safe : ctx.Safe) : ∃ c, zeroFill limit ctx = some c ∧ c.buflen = limit ∧
      c.state = ctx.state ∧ c.Safe ∧ c.buffer.toList.take limit =
        ctx.buffer.toList.take ctx.buflen ++ List.replicate (limit - ctx.buflen) 0 := by
  induction left : limit - ctx.buflen generalizing ctx with
  | zero =>
    have here : ctx.buflen = limit := by omega
    refine ⟨ctx,?_,here,rfl,safe,?_⟩
    · rw [zeroFill,if_neg (by omega)]
    · rw [here,List.replicate_zero,List.append_nil]
  | succ n ih =>
    obtain ⟨c,stored,wrote⟩ := store_wrote ctx ctx.buflen 0 (by omega) (by omega)
    obtain ⟨d,filled,length,state,kept,content⟩ := ih {c with buflen := ctx.buflen + 1}
      (show ctx.buflen + 1 ≤ limit by omega) (wrote.safe safe)
      (show limit - (ctx.buflen + 1) = n by omega)
    refine ⟨d,?_,length,state.trans wrote.state,kept,?_⟩
    · rw [zeroFill,if_pos (by omega),stored]
      exact filled
    · have one : c.buffer.toList.take (ctx.buflen + 1) = ctx.buffer.toList.take ctx.buflen ++ [0] :=
        wrote.content
      rw [content,one,List.append_assoc]
      rfl

theorem lengthBytes_eq (n : Nat) (small : n < 2 ^ 64) :
    (List.range 8).map (fun i => ((BitVec.ofNat 64 n >>> (56 - i * 8)).setWidth 8 : Byte)) =
      Sha2.lengthBytes n := by
  refine List.map_congr_left ?_
  intro i member
  have inside := List.mem_range.mp member
  have power : 2 ^ (56 - i * 8) = 256 ^ (7 - i) := by
    rw [(by decide : 256 = 2 ^ 8),← Nat.pow_mul]
    congr 1
    omega
  apply BitVec.eq_of_toNat_eq
  rw [BitVec.toNat_setWidth,BitVec.toNat_ushiftRight,BitVec.toNat_ofNat,Nat.mod_eq_of_lt small,
    Nat.shiftRight_eq_div_pow,power,BitVec.toNat_ofNat]

theorem storeLength_spec (n : Nat) (small : n < 2 ^ 64) (ctx : Ctx) (room : ctx.buflen < 64) :
    ∃ c, storeLength (BitVec.ofNat 64 n) ctx = some c ∧ Wrote ctx c 56 (Sha2.lengthBytes n) := by
  obtain ⟨c,run,wrote⟩ := stores_wrote ctx 56
    (fun i => (BitVec.ofNat 64 n >>> (56 - i * 8)).setWidth 8) 8 (Nat.le_refl 64) room
    (fun length i => 56 + i) (fun i => rfl)
  rw [lengthBytes_eq n small] at wrote
  exact ⟨c,run,wrote⟩

theorem byte_extract (x : Word) (k : Nat) : ((x >>> k).setWidth 8 : Byte) = x.extractLsb' k 8 := by
  ext i bound
  simp

theorem hashBytes_digest (s : Vector Word 8) : hashBytes s = Sha2.digest (hashValue s) := by
  have elements : s.toList = [s[0],s[1],s[2],s[3],s[4],s[5],s[6],s[7]] := by
    apply List.ext_getElem
    · exact Vector.length_toList
    · intro i left right
      rw [Vector.length_toList] at left
      interval_cases i <;> simp
  have bytes : ∀ x : Word, [(x >>> 24).setWidth 8,(x >>> 16).setWidth 8,(x >>> 8).setWidth 8,
      x.setWidth 8] = Sha2.wordBytes x := by
    intro x
    simp only [Sha2.wordBytes,byte_extract,List.cons.injEq,true_and,and_true]
    exact byte_extract x 0
  rw [hashBytes,elements]
  exact congrArg (List.flatMap · _) (funext bytes)

/-- The bytes of the last block up to the length, and what has been absorbed before it. -/
structure Closing (c : Ctx) (blocks last : List Byte) : Prop where
  whole : 64 ∣ blocks.length
  buflen : c.buflen = 56
  content : c.buffer.toList.take 56 = last
  state : hashValue c.state = Sha2.absorb Sha2.initial blocks
  safe : c.Safe

theorem closing_digest (c : Ctx) (blocks last : List Byte) (n : Nat) (small : n < 2 ^ 64)
    (closing : Closing c blocks last) :
    ∃ d, storeLength (BitVec.ofNat 64 n) c = some d ∧ d.Safe ∧
      hashBytes (blackSha256Transform d.state d.buffer) =
        Sha2.digest (Sha2.absorb Sha2.initial (blocks ++ (last ++ Sha2.lengthBytes n))) := by
  obtain ⟨d,run,wrote⟩ := storeLength_spec n small c (by rw [closing.buflen]; decide)
  have content := wrote.content
  rw [closing.content] at content
  have all : d.buffer.toList = last ++ Sha2.lengthBytes n := by
    rw [← content]
    exact (List.take_of_length_le (Nat.le_of_eq Vector.length_toList)).symm
  refine ⟨d,run,wrote.safe closing.safe,?_⟩
  rw [hashBytes_digest,flush_state d blocks _ closing.whole all (by rw [wrote.state,closing.state])]

section Padding
variable (c : Ctx) (blocks marked : List Byte) (whole : 64 ∣ blocks.length) (some : 0 < marked.length)
  (room : marked.length ≤ 64) (size : c.buflen = marked.length) (content : c.buffer.toList.take c.buflen = marked)
  (state : hashValue c.state = Sha2.absorb Sha2.initial blocks) (safe : c.Safe)
include whole some room size content state safe

/-- A block without room for the length is filled and absorbed, and the zeros go on in the next. -/
theorem padded_full (wide : 56 < c.buflen) : ∃ f d, closeBlock c = Option.some f ∧ zeroFill 56 f = Option.some d ∧
    Closing d (blocks ++ (marked ++ List.replicate (64 - c.buflen) 0)) (List.replicate 56 0) := by
  obtain ⟨d,filled,full,kept,clean,rest⟩ := zeroFill_spec 64 (Nat.le_refl 64) c (by omega) safe
  have closed : closeBlock c = Option.some d.flush := by
    rw [closeBlock,if_pos wide,filled]
    rfl
  have all : d.buffer.toList = marked ++ List.replicate (64 - c.buflen) 0 := by
    rw [← content,← rest]
    exact (List.take_of_length_le (Nat.le_of_eq Vector.length_toList)).symm
  have length : (marked ++ List.replicate (64 - c.buflen) 0).length = 64 := by
    rw [← all]
    exact Vector.length_toList
  have empty : d.flush.buflen = 0 := rfl
  have absorbed : hashValue d.flush.state =
      Sha2.absorb Sha2.initial (blocks ++ (marked ++ List.replicate (64 - c.buflen) 0)) :=
    flush_state d blocks _ whole all (by rw [kept]; exact state)
  have flushed := flush_safe d clean
  -- The flushed context is kept opaque: evaluating the zeros byte by byte is slow.
  generalize d.flush = f at closed empty absorbed flushed
  obtain ⟨e,zeroed,short,same,good,zeros⟩ := zeroFill_spec 56 (by decide) f (by omega) flushed
  rw [empty,List.take_zero,List.nil_append] at zeros
  exact ⟨f,e,closed,zeroed,{
    whole := by
      rw [List.length_append,length]
      exact Nat.dvd_add whole (Nat.dvd_refl 64)
    buflen := short
    content := zeros
    state := by
      rw [same]
      exact absorbed
    safe := good}⟩

omit some room size in
theorem padded_short (narrow : ¬56 < c.buflen) : ∃ f d, closeBlock c = Option.some f ∧ zeroFill 56 f = Option.some d ∧
    Closing d blocks (marked ++ List.replicate (56 - c.buflen) 0) := by
  obtain ⟨d,zeroed,short,same,good,zeros⟩ := zeroFill_spec 56 (by decide) c (by omega) safe
  exact ⟨c,d,if_neg narrow,zeroed,{
    whole := whole
    buflen := short
    content := by
      rw [zeros,content]
    state := by
      rw [same]
      exact state
    safe := good}⟩

/-- After the marker byte the zeros leave a block that lacks only the length, whichever
branch the padding takes. -/
theorem padded_closing : ∃ f d, closeBlock c = Option.some f ∧ zeroFill 56 f = Option.some d ∧
    ∃ blocks' last, Closing d blocks' last ∧
      blocks' ++ last = blocks ++ (marked ++ List.replicate ((120 - marked.length) % 64) 0) := by
  by_cases wide : 56 < c.buflen
  · obtain ⟨f,d,closed,zeroed,closing⟩ := padded_full c blocks marked whole some room size content state safe wide
    have both : (120 - marked.length) % 64 = 64 - c.buflen + 56 := by omega
    refine ⟨f,d,closed,zeroed,_,_,closing,?_⟩
    rw [both,List.replicate_add]
    simp only [List.append_assoc]
  · obtain ⟨f,d,closed,zeroed,closing⟩ := padded_short c blocks marked whole content state safe wide
    have once : (120 - marked.length) % 64 = 56 - c.buflen := by omega
    refine ⟨f,d,closed,zeroed,_,_,closing,?_⟩
    rw [once]

end Padding

theorem final_digest (ctx : Ctx) (blocks pending : List Byte) (held : Holds ctx blocks pending)
    (small : (blocks ++ pending).length < 2 ^ 61) :
    ∃ c, blackSha256Final ctx = some (c,Sha2.sha256 (blocks ++ pending)) ∧ c.Safe := by
  have size := held.size
  have room := held.room
  have rest : (blocks ++ pending).length % 64 = pending.length := by
    obtain ⟨k,hk⟩ := held.whole
    rw [List.length_append]
    omega
  have bits : ctx.total * 8 = BitVec.ofNat 64 ((blocks ++ pending).length * 8) := by
    rw [held.total,BitVec.ofNat_mul]
    rfl
  obtain ⟨c,stored,wrote⟩ := store_wrote ctx ctx.buflen 0x80 (by omega) (by omega)
  have marked : (pending ++ [0x80]).length = pending.length + 1 := List.length_append
  obtain ⟨f,d,closed,filled,blocks',last,closing,joined⟩ := padded_closing {c with buflen := c.buflen + 1}
    blocks (pending ++ [0x80]) held.whole (by omega) (by omega)
    (by
      rw [marked,← size]
      exact congrArg (· + 1) wrote.buflen)
    (by
      rw [← held.content]
      refine Eq.trans ?_ wrote.content
      exact congrArg (fun n => c.buffer.toList.take (n + 1)) wrote.buflen)
    (by
      rw [← held.state]
      exact congrArg hashValue wrote.state)
    (wrote.safe held.safe)
  obtain ⟨e,lengths,good,digest⟩ := closing_digest d blocks' last
    ((blocks ++ pending).length * 8) (by omega) closing
  have message : blocks' ++ (last ++ Sha2.lengthBytes ((blocks ++ pending).length * 8)) =
      blocks ++ pending ++ Sha2.padding (blocks ++ pending).length := by
    have zeros : 120 - (pending ++ [0x80]).length = 119 - pending.length := by omega
    rw [← List.append_assoc,joined,zeros,Sha2.padding,rest]
    simp only [List.append_assoc,List.cons_append,List.nil_append]
  refine ⟨{e with state := blackSha256Transform e.state e.buffer},?_,good⟩
  rw [message] at digest
  simp -implicitDefEqProofs only [blackSha256Final,stored,Option.bind_eq_bind,Option.bind_some,closed,
    filled,bits,lengths,digest,Sha2.sha256,Option.pure_def]

/-- However a message is cut into chunks, the stream returns its SHA-256 digest, as the
one-call hash does, and every buffer write on the way is inside the buffer. -/
theorem stream_sha256 (chunks : List (List Byte)) (small : chunks.flatten.length < 2 ^ 61) :
    ∃ c, stream chunks = some (c,Sha2.sha256 chunks.flatten) ∧
      blackSha256Hash chunks.flatten = some (Sha2.sha256 chunks.flatten) ∧
      ∀ write ∈ c.writes, write.1 < 64 ∧ write.2 < 64 := by
  obtain ⟨c,blocks,pending,run,held,joined⟩ := updates_hold chunks blackSha256Init [] [] holds_init
  obtain ⟨d,blocks',pending',once,kept,whole⟩ := update_holds blackSha256Init chunks.flatten [] []
    holds_init
  rw [List.append_nil,List.nil_append] at joined whole
  rw [← joined] at small
  obtain ⟨e,finished,safe⟩ := final_digest c blocks pending held small
  obtain ⟨f,hashed,_⟩ := final_digest d blocks' pending' kept (by rw [whole,← joined]; exact small)
  rw [joined] at finished
  rw [whole] at hashed
  refine ⟨e,?_,?_,safe⟩
  · rw [stream,run,Option.bind_eq_bind,Option.bind_some,finished]
  · simp -implicitDefEqProofs only [blackSha256Hash,once,Option.bind_eq_bind,Option.bind_some,hashed,
      Option.pure_def]

/-- The message "abc" in three chunks, one of them empty. -/
theorem stream_sha256_abc :
    [[0x61#8],[],[0x62#8,0x63#8]].flatten.length < 2 ^ 61 ∧
      ∃ c, stream [[0x61#8],[],[0x62#8,0x63#8]] = some (c,Sha2.sha256 [0x61#8,0x62#8,0x63#8]) ∧
        blackSha256Hash [0x61#8,0x62#8,0x63#8] = some (Sha2.sha256 [0x61#8,0x62#8,0x63#8]) ∧
        ∀ write ∈ c.writes, write.1 < 64 ∧ write.2 < 64 :=
  ⟨by decide,stream_sha256 [[0x61#8],[],[0x62#8,0x63#8]] (by decide)⟩

end BlackOS.Sha256
