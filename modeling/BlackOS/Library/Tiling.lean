import Mathlib.Algebra.GroupWithZero.Nat
import Mathlib.Data.List.Chain
import Mathlib.Tactic.Common

/-! Blocks laid end to end over an interval, each a header of fixed overhead
followed by its payload, with carving, releasing and coalescing of free
neighbours. Released blocks reach one normal form in any order. -/
namespace BlackOS.Library.Tiling

structure Block where
  addr : Nat
  size : Nat
  free : Bool
  deriving DecidableEq,Repr

section
variable (overhead : Nat)

def Block.limit (b : Block) : Nat := b.addr + overhead + b.size

def Tiles : Nat → Nat → List Block → Prop
  | lo,hi,[] => lo = hi
  | lo,hi,b::bs => b.addr = lo ∧ Tiles (b.limit overhead) hi bs

def Separated (bs : List Block) : Prop := bs.IsChain (fun a b => a.free = false ∨ b.free = false)

def mark (p : Nat) (b : Block) : Block := if b.addr = p then {b with free := true} else b

def absorb (b c : Block) : Block := {b with size := b.size + overhead + c.size}

/-- Put a block in front of a list, absorbing the list's first block when both are free. -/
def glue (b : Block) : List Block → List Block
  | [] => [b]
  | c::cs => if b.free && c.free then absorb overhead b c :: cs else b::c::cs

def coalesce : List Block → List Block
  | [] => []
  | b::bs => glue overhead b (coalesce bs)

def release (p : Nat) (bs : List Block) : List Block := coalesce overhead (bs.map (mark p))

/-- Take `n` bytes of a free block that has them; what remains becomes a free
block of its own when it is larger than a header and `least` bytes. -/
def carve (least n : Nat) (b : Block) : List Block :=
  if b.free && n ≤ b.size then
    if b.size ≤ n + overhead + least then [{b with free := false}]
    else [{b with size := n,free := false},⟨b.addr + overhead + n,b.size - n - overhead,true⟩]
  else [b]

def allocate (least n p : Nat) (bs : List Block) : List Block :=
  bs.flatMap (fun b => if b.addr = p then carve overhead least n b else [b])

theorem tiles_append (lo hi : Nat) (xs ys : List Block) :
    Tiles overhead lo hi (xs ++ ys) ↔ ∃ mid, Tiles overhead lo mid xs ∧ Tiles overhead mid hi ys := by
  induction xs generalizing lo with
  | nil => simp [Tiles]
  | cons b bs ih =>
    simp only [List.cons_append,Tiles,ih]
    constructor
    · rintro ⟨at_,mid,first,rest⟩
      exact ⟨mid,⟨at_,first⟩,rest⟩
    · rintro ⟨mid,⟨at_,first⟩,rest⟩
      exact ⟨at_,mid,first,rest⟩

theorem tiles_at (lo hi : Nat) (pre : List Block) (b : Block) (post : List Block)
    (tiles : Tiles overhead lo hi (pre ++ b::post)) :
    Tiles overhead lo b.addr pre ∧ Tiles overhead b.addr hi (b::post) := by
  obtain ⟨mid,before,here⟩ := (tiles_append overhead lo hi pre (b::post)).mp tiles
  obtain ⟨rfl,after⟩ := here
  exact ⟨before,rfl,after⟩

theorem tiles_le (lo hi : Nat) (bs : List Block) (tiles : Tiles overhead lo hi bs) : lo ≤ hi := by
  induction bs generalizing lo with
  | nil => exact Nat.le_of_eq tiles
  | cons b bs ih =>
    obtain ⟨rfl,rest⟩ := tiles
    have step := ih _ rest
    simp only [Block.limit] at step
    omega

theorem tiles_bounds (lo hi : Nat) (bs : List Block) (tiles : Tiles overhead lo hi bs)
    (b : Block) (member : b ∈ bs) : lo ≤ b.addr ∧ b.limit overhead ≤ hi := by
  induction bs generalizing lo with
  | nil => simp at member
  | cons c cs ih =>
    obtain ⟨rfl,rest⟩ := tiles
    rcases List.mem_cons.mp member with rfl | inside
    · exact ⟨Nat.le_refl _,tiles_le overhead _ _ _ rest⟩
    · have bounds := ih _ rest inside
      have step : c.addr ≤ c.limit overhead := by simp only [Block.limit]; omega
      exact ⟨by omega,bounds.2⟩

theorem tiles_around (lo hi : Nat) (pre : List Block) (b : Block) (post : List Block)
    (tiles : Tiles overhead lo hi (pre ++ b::post)) :
    (∀ x ∈ pre, x.limit overhead ≤ b.addr) ∧ (∀ y ∈ post, b.limit overhead ≤ y.addr) := by
  obtain ⟨before,_,after⟩ := tiles_at overhead lo hi pre b post tiles
  exact ⟨fun x member => (tiles_bounds overhead _ _ _ before x member).2,
    fun y member => (tiles_bounds overhead _ _ _ after y member).1⟩

theorem tiles_disjoint (lo hi : Nat) (bs : List Block) (tiles : Tiles overhead lo hi bs)
    (b c : Block) (left : b ∈ bs) (right : c ∈ bs) :
    b = c ∨ b.limit overhead ≤ c.addr ∨ c.limit overhead ≤ b.addr := by
  obtain ⟨pre,post,rfl⟩ := List.append_of_mem left
  have around := tiles_around overhead lo hi pre b post tiles
  rcases List.mem_append.mp right with before | rest
  · exact Or.inr (Or.inr (around.1 c before))
  · rcases List.mem_cons.mp rest with rfl | after
    · exact Or.inl rfl
    · exact Or.inr (Or.inl (around.2 c after))

theorem tiles_total (lo hi : Nat) (bs : List Block) (tiles : Tiles overhead lo hi bs) :
    lo + (bs.map (fun b => overhead + b.size)).sum = hi := by
  induction bs generalizing lo with
  | nil => simpa [Tiles] using tiles
  | cons b bs ih =>
    obtain ⟨rfl,rest⟩ := tiles
    have step := ih _ rest
    simp only [List.map_cons,List.sum_cons,Block.limit] at step ⊢
    omega

theorem tiles_length (lo hi : Nat) (bs : List Block) (tiles : Tiles overhead lo hi bs) :
    lo + overhead * bs.length ≤ hi := by
  induction bs generalizing lo with
  | nil => simpa [Tiles] using Nat.le_of_eq tiles
  | cons b bs ih =>
    obtain ⟨rfl,rest⟩ := tiles
    have step := ih _ rest
    simp only [List.length_cons,Block.limit,Nat.mul_add,Nat.mul_one] at step ⊢
    omega

/-! Coalescing. -/

theorem glue_of_used (b : Block) (used : b.free = false) (cs : List Block) :
    glue overhead b cs = b::cs := by
  cases cs <;> simp [glue,used]

theorem glue_of_next_used (b c : Block) (used : c.free = false) (cs : List Block) :
    glue overhead b (c::cs) = b::c::cs := by
  simp [glue,used]

theorem glue_of_free (b c : Block) (left : b.free = true) (right : c.free = true) (cs : List Block) :
    glue overhead b (c::cs) = absorb overhead b c :: cs := by
  simp [glue,left,right]

theorem glue_cases (b c : Block) (cs : List Block) :
    (b.free = true ∧ c.free = true ∧ glue overhead b (c::cs) = absorb overhead b c :: cs) ∨
      ((b.free = false ∨ c.free = false) ∧ glue overhead b (c::cs) = b::c::cs) := by
  cases left : b.free with
  | false => exact Or.inr ⟨Or.inl rfl,glue_of_used overhead b left _⟩
  | true =>
    cases right : c.free with
    | false => exact Or.inr ⟨Or.inr rfl,glue_of_next_used overhead b c right _⟩
    | true => exact Or.inl ⟨rfl,rfl,glue_of_free overhead b c left right _⟩

theorem glue_cons (b : Block) (cs : List Block) : ∃ c ds, glue overhead b cs = c::ds ∧
    c.addr = b.addr ∧ c.free = b.free := by
  cases cs with
  | nil => exact ⟨b,[],rfl,rfl,rfl⟩
  | cons c cs =>
    rcases glue_cases overhead b c cs with ⟨_,_,glued⟩ | ⟨_,glued⟩
    · exact ⟨_,_,glued,rfl,rfl⟩
    · exact ⟨_,_,glued,rfl,rfl⟩

theorem glue_glue (b c : Block) (left : b.free = true) (right : c.free = true) (cs : List Block) :
    glue overhead b (glue overhead c cs) = glue overhead (absorb overhead b c) cs := by
  cases cs with
  | nil => simp [glue,absorb,left,right]
  | cons d ds =>
    cases third : d.free with
    | false => simp [glue,absorb,left,right,third]
    | true => simp [glue,absorb,left,right,third,Nat.add_assoc]

theorem tiles_glue (lo hi : Nat) (b : Block) (cs : List Block)
    (tiles : Tiles overhead lo hi (b::cs)) : Tiles overhead lo hi (glue overhead b cs) := by
  cases cs with
  | nil => exact tiles
  | cons c cs =>
    obtain ⟨rfl,atLimit,rest⟩ := tiles
    rcases glue_cases overhead b c cs with ⟨_,_,glued⟩ | ⟨_,glued⟩ <;> rw [glued]
    · refine ⟨rfl,?_⟩
      have same : (absorb overhead b c).limit overhead = c.limit overhead := by
        simp only [absorb,Block.limit] at atLimit ⊢
        omega
      rwa [same]
    · exact ⟨rfl,atLimit,rest⟩

theorem tiles_coalesce (lo hi : Nat) (bs : List Block) (tiles : Tiles overhead lo hi bs) :
    Tiles overhead lo hi (coalesce overhead bs) := by
  induction bs generalizing lo with
  | nil => exact tiles
  | cons b bs ih => exact tiles_glue overhead lo hi b _ ⟨tiles.1,ih _ tiles.2⟩

theorem separated_coalesce (bs : List Block) : Separated (coalesce overhead bs) := by
  induction bs with
  | nil => exact .nil
  | cons b bs ih =>
    change Separated (glue overhead b (coalesce overhead bs))
    cases rest : coalesce overhead bs with
    | nil => exact .singleton b
    | cons c cs =>
      rw [rest] at ih
      rcases glue_cases overhead b c cs with ⟨_,free,glued⟩ | ⟨boundary,glued⟩ <;> rw [glued]
      · -- the absorbing block is free like the block it replaces
        cases cs with
        | nil => exact .singleton _
        | cons d ds =>
          obtain ⟨boundary,tail⟩ := List.isChain_cons_cons.mp ih
          have used : d.free = false := by simpa [free] using boundary
          exact List.isChain_cons_cons.mpr ⟨Or.inr used,tail⟩
      · exact List.isChain_cons_cons.mpr ⟨boundary,ih⟩

theorem coalesce_append (pre ys : List Block) (separated : Separated pre)
    (last : ∀ b ∈ pre.getLast?, b.free = false) :
    coalesce overhead (pre ++ ys) = pre ++ coalesce overhead ys := by
  induction pre with
  | nil => rfl
  | cons b bs ih =>
    cases bs with
    | nil => exact glue_of_used overhead b (last b (by simp)) _
    | cons c cs =>
      obtain ⟨boundary,tail⟩ := List.isChain_cons_cons.mp separated
      have rest := ih tail (fun d member => last d (by simpa using member))
      change glue overhead b (coalesce overhead (c::cs ++ ys)) = _
      rw [rest]
      rcases boundary with used | used
      · exact glue_of_used overhead b used _
      · exact glue_of_next_used overhead b c used _

theorem coalesce_of_separated (bs : List Block) (separated : Separated bs) :
    coalesce overhead bs = bs := by
  induction bs with
  | nil => rfl
  | cons b bs ih =>
    change glue overhead b (coalesce overhead bs) = b::bs
    cases bs with
    | nil => rfl
    | cons c cs =>
      obtain ⟨boundary,tail⟩ := List.isChain_cons_cons.mp separated
      rw [ih tail]
      rcases boundary with used | used
      · exact glue_of_used overhead b used _
      · exact glue_of_next_used overhead b c used _

theorem glue_settled (b c : Block) (cs ds : List Block) (separated : Separated cs)
    (glued : glue overhead b cs = c::ds) : glue overhead c ds = c::ds := by
  cases cs with
  | nil =>
    cases glued
    rfl
  | cons e es =>
    rcases glue_cases overhead b e es with ⟨_,free,shape⟩ | ⟨boundary,shape⟩ <;>
      cases glued.symm.trans shape
    · cases ds with
      | nil => rfl
      | cons f fs =>
        have either := (List.isChain_cons_cons.mp separated).1
        exact glue_of_next_used overhead _ f (by simpa [free] using either) fs
    · exact shape

theorem mark_free (p : Nat) (b : Block) (free : b.free = true) : mark p b = b := by
  unfold mark
  split
  · rw [← free]
  · rfl

theorem coalesce_mark_coalesce (p : Nat) (bs : List Block) :
    coalesce overhead ((coalesce overhead bs).map (mark p)) = coalesce overhead (bs.map (mark p)) := by
  induction bs with
  | nil => rfl
  | cons b bs ih =>
    change coalesce overhead ((glue overhead b (coalesce overhead bs)).map (mark p)) =
      glue overhead (mark p b) (coalesce overhead (bs.map (mark p)))
    rw [← ih]
    cases rest : coalesce overhead bs with
    | nil => rfl
    | cons c cs =>
      rcases glue_cases overhead b c cs with ⟨left,right,glued⟩ | ⟨_,glued⟩ <;> rw [glued]
      · have merged : mark p (absorb overhead b c) = absorb overhead b c := mark_free p _ left
        simp only [List.map_cons,coalesce,merged,mark_free p b left,mark_free p c right]
        exact (glue_glue overhead b c left right _).symm
      · rfl

theorem mem_coalesce_used (bs : List Block) (b : Block) (used : b.free = false) :
    b ∈ coalesce overhead bs ↔ b ∈ bs := by
  induction bs with
  | nil => rfl
  | cons c cs ih =>
    have step : b ∈ glue overhead c (coalesce overhead cs) ↔ b ∈ c::coalesce overhead cs := by
      cases coalesce overhead cs with
      | nil => rfl
      | cons d ds =>
        rcases glue_cases overhead c d ds with ⟨left,right,glued⟩ | ⟨_,glued⟩ <;> rw [glued]
        have notMerged : b ≠ absorb overhead c d := by
          rintro rfl
          simp [absorb,left] at used
        have notLeft : b ≠ c := by rintro rfl; simp [left] at used
        have notRight : b ≠ d := by rintro rfl; simp [right] at used
        simp [notMerged,notLeft,notRight]
    change b ∈ glue overhead c (coalesce overhead cs) ↔ _
    rw [step,List.mem_cons,List.mem_cons,ih]

theorem tiles_mark (p lo hi : Nat) (bs : List Block) (tiles : Tiles overhead lo hi bs) :
    Tiles overhead lo hi (bs.map (mark p)) := by
  induction bs generalizing lo with
  | nil => exact tiles
  | cons b bs ih =>
    obtain ⟨rfl,rest⟩ := tiles
    have address : (mark p b).addr = b.addr := by unfold mark; split <;> rfl
    have limit : (mark p b).limit overhead = b.limit overhead := by unfold mark; split <;> rfl
    exact ⟨address,limit ▸ ih _ rest⟩

theorem foldl_release (ps : List Nat) (bs : List Block) (separated : Separated bs) :
    ps.foldl (fun cs p => release overhead p cs) bs =
      coalesce overhead (bs.map (fun b => if b.addr ∈ ps then {b with free := true} else b)) := by
  induction ps using List.reverseRecOn with
  | nil => simp [coalesce_of_separated overhead bs separated]
  | append_singleton ps p ih =>
    rw [List.foldl_append,List.foldl_cons,List.foldl_nil,ih]
    change coalesce overhead ((coalesce overhead _).map (mark p)) = _
    rw [coalesce_mark_coalesce,List.map_map]
    apply congrArg (coalesce overhead)
    apply List.map_congr_left
    intro b _
    by_cases here : b.addr = p <;> by_cases before : b.addr ∈ ps <;> simp [mark,here,before]
    all_goals simp_all

theorem foldl_release_congr (ps qs : List Nat) (same : ∀ p, p ∈ ps ↔ p ∈ qs) (bs : List Block)
    (separated : Separated bs) :
    ps.foldl (fun cs p => release overhead p cs) bs = qs.foldl (fun cs p => release overhead p cs) bs := by
  rw [foldl_release overhead ps bs separated,foldl_release overhead qs bs separated]
  simp only [same]

/-! Best fit. -/

/-- Of the free blocks with `n` bytes, the first of the smallest. -/
structure BestFit (n : Nat) (bs : List Block) (b : Block) (left right : List Block) : Prop where
  place : bs = left ++ b::right
  free : b.free = true
  room : n ≤ b.size
  before : ∀ c ∈ left, c.free = true → n ≤ c.size → b.size < c.size
  after : ∀ c ∈ right, c.free = true → n ≤ c.size → b.size ≤ c.size

def BestOf (n : Nat) (bs : List Block) : Option Block → Prop
  | none => ∀ c ∈ bs, c.free = true → c.size < n
  | some b => ∃ left right, BestFit n bs b left right

theorem BestFit.extend {n : Nat} {bs : List Block} {b : Block} {left right : List Block}
    (best : BestFit n bs b left right) (rest : List Block)
    (larger : ∀ c ∈ rest, c.free = true → n ≤ c.size → b.size ≤ c.size) :
    BestFit n (bs ++ rest) b left (right ++ rest) := by
  refine ⟨by rw [best.place]; simp,best.free,best.room,best.before,?_⟩
  intro c member free room
  rcases List.mem_append.mp member with earlier | later
  · exact best.after c earlier free room
  · exact larger c later free room

theorem bestOf_skip (n : Nat) (seen : List Block) (best : Option Block) (held : BestOf n seen best)
    (c : Block) (unfit : ¬(c.free = true ∧ n ≤ c.size)) : BestOf n (seen ++ [c]) best := by
  cases best with
  | none =>
    intro d member free
    rcases List.mem_append.mp member with earlier | here
    · exact held d earlier free
    · cases List.mem_singleton.mp here
      by_contra large
      exact unfit ⟨free,by omega⟩
  | some b =>
    obtain ⟨left,right,fit⟩ := held
    refine ⟨left,right ++ [c],fit.extend [c] ?_⟩
    intro d here free room
    cases List.mem_singleton.mp here
    exact absurd ⟨free,room⟩ unfit

theorem bestOf_keep (n : Nat) (seen : List Block) (b : Block) (held : BestOf n seen (some b)) (c : Block)
    (larger : b.size ≤ c.size) : BestOf n (seen ++ [c]) (some b) := by
  obtain ⟨left,right,fit⟩ := held
  refine ⟨left,right ++ [c],fit.extend [c] ?_⟩
  intro d here _ _
  cases List.mem_singleton.mp here
  exact larger

theorem bestOf_replace (n : Nat) (seen : List Block) (best : Option Block) (held : BestOf n seen best)
    (c : Block) (free : c.free = true) (room : n ≤ c.size) (smaller : ∀ b, best = some b → c.size < b.size) :
    BestOf n (seen ++ [c]) (some c) := by
  refine ⟨seen,[],rfl,free,room,?_,by simp⟩
  intro d member freeD roomD
  cases best with
  | none =>
    have short := held d member freeD
    omega
  | some b =>
    have less := smaller b rfl
    obtain ⟨left,right,fit⟩ := held
    rw [fit.place] at member
    rcases List.mem_append.mp member with earlier | later
    · have first := fit.before d earlier freeD roomD
      omega
    · rcases List.mem_cons.mp later with same | behind
      · rw [same]
        exact less
      · have second := fit.after d behind freeD roomD
        omega

/-- No later block is better than an exact fit. -/
theorem bestOf_exact (n : Nat) (seen rest : List Block) (b : Block) (held : BestOf n seen (some b))
    (same : b.size = n) : BestOf n (seen ++ rest) (some b) := by
  obtain ⟨left,right,fit⟩ := held
  refine ⟨left,right ++ rest,fit.extend rest ?_⟩
  intro c _ _ room
  omega

/-! Carving. -/

def taken (least n : Nat) (b : Block) : Block :=
  {b with size := if b.size ≤ n + overhead + least then b.size else n,free := false}

theorem carve_cases (least n : Nat) (b : Block) (free : b.free = true) (room : n ≤ b.size) :
    (b.size ≤ n + overhead + least ∧ carve overhead least n b = [taken overhead least n b]) ∨
      (n + overhead + least < b.size ∧ carve overhead least n b =
        [taken overhead least n b,⟨b.addr + overhead + n,b.size - n - overhead,true⟩]) := by
  unfold carve taken
  by_cases whole : b.size ≤ n + overhead + least
  · exact Or.inl ⟨whole,by simp [free,room,whole]⟩
  · exact Or.inr ⟨by omega,by simp [free,room,whole]⟩

theorem carve_of_used (least n : Nat) (b : Block) (used : b.free = false) :
    carve overhead least n b = [b] := by
  simp [carve,used]

theorem carve_of_short (least n : Nat) (b : Block) (short : ¬n ≤ b.size) :
    carve overhead least n b = [b] := by
  simp [carve,short]

theorem tiles_carve (least n : Nat) (b : Block) :
    Tiles overhead b.addr (b.limit overhead) (carve overhead least n b) := by
  by_cases fits : b.free = true ∧ n ≤ b.size
  · rcases carve_cases overhead least n b fits.1 fits.2 with ⟨whole,carved⟩ | ⟨part,carved⟩ <;> rw [carved]
    · exact ⟨rfl,by simp [Tiles,taken,Block.limit,whole]⟩
    · have cut : ¬b.size ≤ n + overhead + least := by omega
      refine ⟨rfl,by simp [taken,Block.limit,cut],?_⟩
      simp only [Tiles,Block.limit]
      omega
  · have same : carve overhead least n b = [b] := by
      rcases not_and_or.mp fits with used | short
      · exact carve_of_used overhead least n b (by simpa using used)
      · exact carve_of_short overhead least n b short
    rw [same]
    exact ⟨rfl,rfl⟩

theorem tiles_flatMap (f : Block → List Block)
    (keep : ∀ b, Tiles overhead b.addr (b.limit overhead) (f b)) (lo hi : Nat) (bs : List Block)
    (tiles : Tiles overhead lo hi bs) : Tiles overhead lo hi (bs.flatMap f) := by
  induction bs generalizing lo with
  | nil => exact tiles
  | cons b bs ih =>
    obtain ⟨rfl,rest⟩ := tiles
    exact (tiles_append overhead _ _ _ _).mpr ⟨_,keep b,ih _ rest⟩

theorem separated_flatMap (f : Block → List Block) (nonempty : ∀ b, f b ≠ [])
    (inner : ∀ b, Separated (f b))
    (first : ∀ b, ∀ c ∈ (f b).head?, c.free = true → b.free = true)
    (last : ∀ b, ∀ c ∈ (f b).getLast?, c.free = true → b.free = true)
    (bs : List Block) (separated : Separated bs) : Separated (bs.flatMap f) := by
  induction bs with
  | nil => exact .nil
  | cons b bs ih =>
    rw [List.flatMap_cons]
    refine List.isChain_append.mpr ⟨inner b,ih separated.tail,?_⟩
    intro x atEnd y atStart
    cases bs with
    | nil => simp at atStart
    | cons c cs =>
      rw [List.flatMap_cons,List.head?_append_of_ne_nil _ (nonempty c)] at atStart
      obtain ⟨boundary,_⟩ := List.isChain_cons_cons.mp separated
      cases left : x.free with
      | false => exact Or.inl rfl
      | true =>
        cases right : y.free with
        | false => exact Or.inr rfl
        | true =>
          have freeB := last b x atEnd left
          have freeC := first c y atStart right
          simp [freeB,freeC] at boundary

theorem allocate_at (least n lo hi : Nat) (pre : List Block) (b : Block) (post : List Block)
    (positive : 0 < overhead) (tiles : Tiles overhead lo hi (pre ++ b::post)) :
    allocate overhead least n b.addr (pre ++ b::post) = pre ++ carve overhead least n b ++ post := by
  obtain ⟨before,after⟩ := tiles_around overhead lo hi pre b post tiles
  have keepsPre : ∀ x ∈ pre, (if x.addr = b.addr then carve overhead least n x else [x]) = [x] := by
    intro x member
    have ends := before x member
    simp only [Block.limit] at ends
    exact if_neg (by omega)
  have keepsPost : ∀ y ∈ post, (if y.addr = b.addr then carve overhead least n y else [y]) = [y] := by
    intro y member
    have starts := after y member
    simp only [Block.limit] at starts
    exact if_neg (by omega)
  simp only [allocate,List.flatMap_append,List.flatMap_cons,if_true]
  rw [List.flatMap_congr keepsPre,List.flatMap_congr keepsPost]
  simp

theorem tiles_allocate (least n p lo hi : Nat) (bs : List Block) (tiles : Tiles overhead lo hi bs) :
    Tiles overhead lo hi (allocate overhead least n p bs) := by
  apply tiles_flatMap overhead _ _ lo hi bs tiles
  intro b
  split
  · exact tiles_carve overhead least n b
  · exact ⟨rfl,rfl⟩

theorem separated_allocate (least n p : Nat) (bs : List Block) (separated : Separated bs) :
    Separated (allocate overhead least n p bs) := by
  have shape (b : Block) : carve overhead least n b = [b] ∨
      (b.free = true ∧ (carve overhead least n b = [taken overhead least n b] ∨
        carve overhead least n b =
          [taken overhead least n b,⟨b.addr + overhead + n,b.size - n - overhead,true⟩])) := by
    by_cases fits : b.free = true ∧ n ≤ b.size
    · rcases carve_cases overhead least n b fits.1 fits.2 with ⟨_,carved⟩ | ⟨_,carved⟩
      · exact Or.inr ⟨fits.1,Or.inl carved⟩
      · exact Or.inr ⟨fits.1,Or.inr carved⟩
    · rcases not_and_or.mp fits with used | short
      · exact Or.inl (carve_of_used overhead least n b (by simpa using used))
      · exact Or.inl (carve_of_short overhead least n b short)
  apply separated_flatMap _ _ _ _ _ bs separated
  · intro b
    split
    · rcases shape b with same | ⟨_,one | two⟩ <;> simp [*]
    · simp
  · intro b
    split
    · rcases shape b with same | ⟨_,one | two⟩ <;> simp [*,Separated,taken]
    · simp [Separated]
  · intro b c member free
    split at member
    · rcases shape b with same | ⟨was,one | two⟩ <;> simp_all
    · simp_all
  · intro b c member free
    split at member
    · rcases shape b with same | ⟨was,one | two⟩ <;> simp_all
    · simp_all

/-! Releasing. -/

theorem map_mark_at (lo hi : Nat) (pre : List Block) (b : Block) (post : List Block)
    (positive : 0 < overhead) (tiles : Tiles overhead lo hi (pre ++ b::post)) :
    (pre ++ b::post).map (mark b.addr) = pre ++ {b with free := true}::post := by
  obtain ⟨before,after⟩ := tiles_around overhead lo hi pre b post tiles
  have keepsPre : ∀ x ∈ pre, mark b.addr x = x := by
    intro x member
    have ends := before x member
    simp only [Block.limit] at ends
    exact if_neg (by omega)
  have keepsPost : ∀ y ∈ post, mark b.addr y = y := by
    intro y member
    have starts := after y member
    simp only [Block.limit] at starts
    exact if_neg (by omega)
  rw [List.map_append,List.map_cons,List.map_congr_left keepsPre,List.map_congr_left keepsPost]
  simp [mark]

theorem release_after_used (lo hi : Nat) (pre : List Block) (b : Block) (post : List Block)
    (positive : 0 < overhead) (tiles : Tiles overhead lo hi (pre ++ b::post))
    (separated : Separated (pre ++ b::post)) (last : ∀ x ∈ pre.getLast?, x.free = false) :
    release overhead b.addr (pre ++ b::post) = pre ++ glue overhead {b with free := true} post := by
  obtain ⟨sepPre,sepRest,_⟩ := List.isChain_append.mp separated
  rw [release,map_mark_at overhead lo hi pre b post positive tiles,
    coalesce_append overhead pre _ sepPre last]
  change pre ++ glue overhead _ (coalesce overhead post) = _
  rw [coalesce_of_separated overhead post sepRest.tail]

theorem release_after_free (lo hi : Nat) (pre : List Block) (a b : Block) (post : List Block)
    (positive : 0 < overhead) (tiles : Tiles overhead lo hi (pre ++ a::b::post))
    (separated : Separated (pre ++ a::b::post)) (free : a.free = true) :
    release overhead b.addr (pre ++ a::b::post) = pre ++ glue overhead (absorb overhead a b) post := by
  obtain ⟨sepPre,sepRest,boundary⟩ := List.isChain_append.mp separated
  have last : ∀ x ∈ pre.getLast?, x.free = false := by
    intro x atEnd
    have either := boundary x atEnd a (by simp)
    simpa [free] using either
  have shaped : pre ++ a::b::post = (pre ++ [a]) ++ b::post := by simp
  rw [release,shaped,map_mark_at overhead lo hi (pre ++ [a]) b post positive (by rwa [← shaped]),
    List.append_assoc,coalesce_append overhead pre _ sepPre last]
  change pre ++ glue overhead a (glue overhead {b with free := true} (coalesce overhead post)) = _
  rw [coalesce_of_separated overhead post sepRest.tail.tail,glue_glue overhead a _ free rfl]
  rfl

theorem release_absent (p : Nat) (bs : List Block) (separated : Separated bs)
    (absent : ∀ b ∈ bs, b.addr ≠ p) : release overhead p bs = bs := by
  have same : ∀ b ∈ bs, mark p b = b := fun b member => if_neg (absent b member)
  rw [release,List.map_congr_left same,List.map_id',coalesce_of_separated overhead bs separated]

theorem mem_release_used (p : Nat) (bs : List Block) (b : Block) (used : b.free = false) :
    b ∈ release overhead p bs ↔ b ∈ bs ∧ b.addr ≠ p := by
  rw [release,mem_coalesce_used overhead _ b used,List.mem_map]
  constructor
  · rintro ⟨c,member,rfl⟩
    by_cases here : c.addr = p
    · simp [mark,here] at used
    · have same : mark p c = c := if_neg here
      rw [same]
      exact ⟨member,here⟩
  · rintro ⟨member,other⟩
    exact ⟨b,member,if_neg other⟩

theorem mem_allocate_used (least n lo hi : Nat) (pre : List Block) (b : Block) (post : List Block)
    (positive : 0 < overhead) (tiles : Tiles overhead lo hi (pre ++ b::post))
    (free : b.free = true) (room : n ≤ b.size) (c : Block) (used : c.free = false) :
    c ∈ allocate overhead least n b.addr (pre ++ b::post) ↔
      c ∈ pre ++ b::post ∨ c = taken overhead least n b := by
  have other : c ≠ b := by rintro rfl; simp [free] at used
  have notRest : c ≠ ⟨b.addr + overhead + n,b.size - n - overhead,true⟩ := by
    rintro rfl
    simp at used
  rw [allocate_at overhead least n lo hi pre b post positive tiles]
  rcases carve_cases overhead least n b free room with ⟨_,carved⟩ | ⟨_,carved⟩ <;>
    simp only [carved,List.mem_append,List.mem_cons,List.not_mem_nil,or_false,other,notRest,false_or]
  all_goals tauto

theorem single_of_free (lo hi : Nat) (bs : List Block) (tiles : Tiles overhead lo hi bs)
    (separated : Separated bs) (proper : lo < hi) (free : ∀ b ∈ bs, b.free = true) :
    bs = [⟨lo,hi - lo - overhead,true⟩] := by
  match bs,tiles,separated with
  | [],tiles,_ => simp [Tiles] at tiles; omega
  | [b],tiles,_ =>
    obtain ⟨rfl,limit⟩ := tiles
    have isFree := free b (by simp)
    simp only [Tiles,Block.limit] at limit
    have size : b.size = hi - b.addr - overhead := by omega
    rw [← size,← isFree]
  | b::c::cs,_,separated =>
    have boundary := (List.isChain_cons_cons.mp separated).1
    simp [free b (by simp),free c (by simp)] at boundary

end

/-- Blocks that tile an interval with no two free neighbours. -/
structure Arena (overhead lo hi : Nat) where
  blocks : List Block
  tiles : Tiles overhead lo hi blocks
  separated : Separated blocks

namespace Arena
variable {overhead lo hi : Nat}

def whole (room : lo + overhead ≤ hi) : Arena overhead lo hi where
  blocks := [⟨lo,hi - lo - overhead,true⟩]
  tiles := ⟨rfl,by simp only [Tiles,Block.limit]; omega⟩
  separated := .singleton _

def release (p : Nat) (arena : Arena overhead lo hi) : Arena overhead lo hi where
  blocks := Tiling.release overhead p arena.blocks
  tiles := tiles_coalesce overhead lo hi _ (tiles_mark overhead p lo hi _ arena.tiles)
  separated := separated_coalesce overhead _

def allocate (least n p : Nat) (arena : Arena overhead lo hi) : Arena overhead lo hi where
  blocks := Tiling.allocate overhead least n p arena.blocks
  tiles := tiles_allocate overhead least n p lo hi _ arena.tiles
  separated := separated_allocate overhead least n p _ arena.separated

theorem foldl_release_blocks (ps : List Nat) (arena : Arena overhead lo hi) :
    (ps.foldl (fun a p => a.release p) arena).blocks =
      ps.foldl (fun bs p => Tiling.release overhead p bs) arena.blocks := by
  induction ps generalizing arena with
  | nil => rfl
  | cons p ps ih => exact ih (arena.release p)

theorem foldl_release_congr (ps qs : List Nat) (same : ∀ p, p ∈ ps ↔ p ∈ qs)
    (arena : Arena overhead lo hi) :
    (ps.foldl (fun a p => a.release p) arena).blocks = (qs.foldl (fun a p => a.release p) arena).blocks := by
  rw [foldl_release_blocks,foldl_release_blocks]
  exact Tiling.foldl_release_congr overhead ps qs same arena.blocks arena.separated

end Arena

end BlackOS.Library.Tiling
