import BlackOS.Keyboard

/-! The interrupt handler of `kernel/drivers/keyboard/keyboard.c`, and the keys that its modifier flags stand
for. -/
namespace BlackOS.Keyboard
open BlackOS.Library.Ram BlackOS.Library.Run

def keyModShift : Byte := 0x01
def keyModCtrl : Byte := 0x02
def keyModAlt : Byte := 0x04

/-- The entries of `black_scancode_to_ascii` up to the last one that is not zero. -/
def blackScancodeToAscii : List Byte := [
  0,27,0x31,0x32,0x33,0x34,0x35,0x36,0x37,0x38,0x39,0x30,0x2D,0x3D,8,
  9,0x71,0x77,0x65,0x72,0x74,0x79,0x75,0x69,0x6F,0x70,0x5B,0x5D,10,
  0,0x61,0x73,0x64,0x66,0x67,0x68,0x6A,0x6B,0x6C,0x3B,0x27,0x60,
  0,0x5C,0x7A,0x78,0x63,0x76,0x62,0x6E,0x6D,0x2C,0x2E,0x2F,0,
  0x2A,0,0x20,0,0,0,0,0,0,0,0,0,0,0,0,0,
  0x37,0x38,0x39,0x2D,0x34,0x35,0x36,0x2B,0x31,0x32,0x33,0x30,0x2E]

def blackScancodeToAsciiShift : List Byte := [
  0,27,0x21,0x40,0x23,0x24,0x25,0x5E,0x26,0x2A,0x28,0x29,0x5F,0x2B,8,
  9,0x51,0x57,0x45,0x52,0x54,0x59,0x55,0x49,0x4F,0x50,0x7B,0x7D,10,
  0,0x41,0x53,0x44,0x46,0x47,0x48,0x4A,0x4B,0x4C,0x3A,0x22,0x7E,
  0,0x7C,0x5A,0x58,0x43,0x56,0x42,0x4E,0x4D,0x3C,0x3E,0x3F,0,
  0x2A,0,0x20,0,0,0,0,0,0,0,0,0,0,0,0,0,
  0x37,0x38,0x39,0x2D,0x34,0x35,0x36,0x2B,0x31,0x32,0x33,0x30,0x2E]

/-- The variables of the handler, and the characters that the callback was given; none without a callback. -/
structure Handler where
  ring : Ring
  shift : Bool
  ctrl : Bool
  alt : Bool
  extended : Bool
  callback : Option (List Byte)

/-- The part of the handler for a key that is no modifier. -/
def otherKey (s : Handler) (released : Bool) (code : Byte) : Handler :=
  let ascii := if code < 128 then
    (if s.shift then blackScancodeToAsciiShift else blackScancodeToAscii).getD code.toNat 0 else 0
  let modifiers := (if s.shift then keyModShift else 0) ||| (if s.ctrl then keyModCtrl else 0) |||
    (if s.alt then keyModAlt else 0)
  let ring := blackKbPushEvent s.ring
    ⟨code,ascii,modifiers,if released then 0 else 1,if s.extended then 1 else 0⟩
  let callback := if released = false ∧ ascii ≠ 0 then s.callback.map (· ++ [ascii]) else s.callback
  {s with ring := ring,callback := callback,extended := false}

/-- `black_kb_irq_handler`, with the byte that it reads. -/
def blackKbIrqHandler (s : Handler) (sc : Byte) : Handler :=
  if sc = 0xE0 then {s with extended := true}
  else
    let released := sc &&& 0x80 ≠ 0
    let code := sc &&& 0x7F
    if code = 0x2A ∨ code = 0x36 then {s with shift := !released,extended := false}
    else if code = 0x1D then {s with ctrl := !released,extended := false}
    else if code = 0x38 then {s with alt := !released,extended := false}
    else otherKey s released code

/-- A key by its code, and whether the code comes with the prefix `0xE0`. -/
structure Key where
  prefixed : Bool
  code : BitVec 7
  deriving DecidableEq

inductive Stroke
  | press (k : Key)
  | release (k : Key)

def Stroke.key : Stroke → Key
  | .press k => k
  | .release k => k

/-- The bytes that the keyboard sends. -/
def Stroke.bytes : Stroke → List Byte
  | .press k => (if k.prefixed then [0xE0] else []) ++ [k.code.setWidth 8]
  | .release k => (if k.prefixed then [0xE0] else []) ++ [k.code.setWidth 8 + 0x80]

def Stroke.down : Stroke → Bool
  | .press _ => true
  | .release _ => false

/-- The left and the right key of a modifier. -/
structure Modifier where
  left : Key
  right : Key

def shiftKeys : Modifier := ⟨⟨false,0x2A⟩,⟨false,0x36⟩⟩
def ctrlKeys : Modifier := ⟨⟨false,0x1D⟩,⟨true,0x1D⟩⟩
def altKeys : Modifier := ⟨⟨false,0x38⟩,⟨true,0x38⟩⟩

section Held
variable (m : Modifier) (down : Key → Bool)

def Held : Prop := down m.left = true ∨ down m.right = true

/-- The code of the key is one of the modifier's, with the prefix or without. -/
def Listens (k : Key) : Prop := k.code = m.left.code ∨ k.code = m.right.code

instance (k : Key) : Decidable (Listens m k) := inferInstanceAs (Decidable (_ ∨ _))

/-- A code of the modifier from another key is made only while the modifier is held, and a code of it is broken
only when no other key of it is down. -/
def Plain : Stroke → Prop
  | .press k => Listens m k → k = m.left ∨ k = m.right ∨ Held m down
  | .release k => Listens m k → (down m.left = true → k = m.left) ∧ (down m.right = true → k = m.right)

def flagAfter (flag : Bool) (stroke : Stroke) : Bool := if Listens m stroke.key then stroke.down else flag

theorem held_press (k : Key) : Held m (Function.update down k true) ↔ k = m.left ∨ k = m.right ∨ Held m down := by
  rw [Held,Function.update_apply,Function.update_apply]
  by_cases left : m.left = k
  · rw [if_pos left]
    exact iff_of_true (.inl rfl) (.inl left.symm)
  · by_cases right : m.right = k
    · rw [if_pos right]
      exact iff_of_true (.inr rfl) (.inr (.inl right.symm))
    · rw [if_neg left,if_neg right,or_iff_right (Ne.symm left),or_iff_right (Ne.symm right)]
      rfl

theorem held_release (k : Key) : ¬Held m (Function.update down k false) ↔
    (down m.left = true → k = m.left) ∧ (down m.right = true → k = m.right) := by
  have side (own : Key) : ¬Function.update down k false own = true ↔ (down own = true → k = own) := by
    rw [Function.update_apply]
    by_cases same : own = k
    · rw [if_pos same]
      exact iff_of_true Bool.false_ne_true fun _ => same.symm
    · rw [if_neg same]
      exact imp_congr_right fun _ => ⟨False.elim,fun equal => same equal.symm⟩
  rw [Held,not_or,side,side]

/-- The flag goes on to agree with the keys exactly when the stroke is plain. -/
theorem plain_iff (flag : Bool) (agree : flag = true ↔ Held m down) (stroke : Stroke) :
    (flagAfter m flag stroke = true ↔ Held m (Function.update down stroke.key stroke.down)) ↔ Plain m down stroke := by
  by_cases listens : Listens m stroke.key
  · rw [flagAfter,if_pos listens]
    cases stroke with
    | press k =>
      refine (iff_true_left rfl).trans ((held_press m down k).trans ?_)
      exact ⟨fun met _ => met,fun plain => plain listens⟩
    | release k =>
      refine (iff_false_left Bool.false_ne_true).trans ((held_release m down k).trans ?_)
      exact ⟨fun met _ => met,fun plain => plain listens⟩
  · have left : m.left ≠ stroke.key := fun same => listens (.inl (congrArg Key.code same.symm))
    have right : m.right ≠ stroke.key := fun same => listens (.inr (congrArg Key.code same.symm))
    rw [flagAfter,if_neg listens,Held,Function.update_of_ne left,Function.update_of_ne right]
    refine iff_of_true agree ?_
    cases stroke with
    | press k => exact fun here => absurd here listens
    | release k => exact fun here => absurd here listens

end Held

section Flags
variable (s : Handler)

theorem other_flags (released : Bool) (code : Byte) : (otherKey s released code).shift = s.shift ∧
    (otherKey s released code).ctrl = s.ctrl ∧ (otherKey s released code).alt = s.alt := ⟨rfl,rfl,rfl⟩

/-- What a byte does to the flags; the prefix, read as a code, is none of theirs. -/
theorem irq_flags (sc : Byte) :
    (blackKbIrqHandler s sc).shift = (if sc &&& 0x7F = 0x2A ∨ sc &&& 0x7F = 0x36 then decide (sc &&& 0x80 = 0) else s.shift) ∧
    (blackKbIrqHandler s sc).ctrl = (if sc &&& 0x7F = 0x1D then decide (sc &&& 0x80 = 0) else s.ctrl) ∧
    (blackKbIrqHandler s sc).alt = (if sc &&& 0x7F = 0x38 then decide (sc &&& 0x80 = 0) else s.alt) := by
  have made : (!decide (sc &&& 0x80 ≠ 0)) = decide (sc &&& 0x80 = 0) := by
    rw [decide_not,Bool.not_not]
  rw [blackKbIrqHandler]
  dsimp only
  by_cases mark : sc = 0xE0
  · subst mark
    exact ⟨rfl,rfl,rfl⟩
  · rw [if_neg mark,made]
    by_cases shift : sc &&& 0x7F = 0x2A ∨ sc &&& 0x7F = 0x36
    · have ctrl : sc &&& 0x7F ≠ 0x1D := by
        rintro same
        rw [same] at shift
        exact absurd shift (by decide)
      have alt : sc &&& 0x7F ≠ 0x38 := by
        rintro same
        rw [same] at shift
        exact absurd shift (by decide)
      rw [if_pos shift,if_pos shift,if_neg ctrl,if_neg alt]
      exact ⟨rfl,rfl,rfl⟩
    · rw [if_neg shift,if_neg shift]
      by_cases ctrl : sc &&& 0x7F = 0x1D
      · have alt : sc &&& 0x7F ≠ 0x38 := by
          rw [ctrl]
          decide
        rw [if_pos ctrl,if_pos ctrl,if_neg alt]
        exact ⟨rfl,rfl,rfl⟩
      · rw [if_neg ctrl,if_neg ctrl]
        by_cases alt : sc &&& 0x7F = 0x38
        · rw [if_pos alt,if_pos alt]
          exact ⟨rfl,rfl,rfl⟩
        · rw [if_neg alt,if_neg alt]
          exact other_flags s _ _

end Flags

/-- The two bytes of a key: the code, and the code with the high bit. -/
theorem code_bytes (c : BitVec 7) : c.setWidth 8 &&& 0x7F = (c.setWidth 8 : Byte) ∧
    c.setWidth 8 &&& 0x80 = (0 : Byte) ∧ (c.setWidth 8 + 0x80) &&& 0x7F = (c.setWidth 8 : Byte) ∧
    (c.setWidth 8 + 0x80) &&& 0x80 ≠ (0 : Byte) := by
  revert c
  decide

theorem code_eq (c d : BitVec 7) : (c.setWidth 8 : Byte) = d.setWidth 8 ↔ c = d := by
  refine ⟨fun same => BitVec.eq_of_toNat_eq ?_,fun same => by rw [same]⟩
  have values := congrArg BitVec.toNat same
  rw [BitVec.toNat_setWidth_of_le (by decide),BitVec.toNat_setWidth_of_le (by decide)] at values
  exact values

/-- The last byte of a stroke. -/
def Stroke.last (stroke : Stroke) : Byte :=
  if stroke.down then stroke.key.code.setWidth 8 else stroke.key.code.setWidth 8 + 0x80

theorem stroke_last (s : Handler) (stroke : Stroke) : ∃ s', s'.shift = s.shift ∧ s'.ctrl = s.ctrl ∧ s'.alt = s.alt ∧
    stroke.bytes.foldl blackKbIrqHandler s = blackKbIrqHandler s' stroke.last := by
  have both (k : Key) (b : Byte) : ∃ s', s'.shift = s.shift ∧ s'.ctrl = s.ctrl ∧ s'.alt = s.alt ∧
      ((if k.prefixed then [0xE0] else []) ++ [b]).foldl blackKbIrqHandler s = blackKbIrqHandler s' b := by
    cases k.prefixed with
    | false => exact ⟨s,rfl,rfl,rfl,rfl⟩
    | true => exact ⟨{s with extended := true},rfl,rfl,rfl,rfl⟩
  cases stroke with
  | press k => exact both k _
  | release k => exact both k _

theorem last_bits (stroke : Stroke) : stroke.last &&& 0x7F = stroke.key.code.setWidth 8 ∧
    decide (stroke.last &&& 0x80 = 0) = stroke.down := by
  have bytes := code_bytes stroke.key.code
  cases stroke with
  | press k => exact ⟨bytes.1,decide_eq_true bytes.2.1⟩
  | release k => exact ⟨bytes.2.2.1,decide_eq_false bytes.2.2.2⟩

theorem stroke_flags (s : Handler) (stroke : Stroke) :
    (stroke.bytes.foldl blackKbIrqHandler s).shift = flagAfter shiftKeys s.shift stroke ∧
    (stroke.bytes.foldl blackKbIrqHandler s).ctrl = flagAfter ctrlKeys s.ctrl stroke ∧
    (stroke.bytes.foldl blackKbIrqHandler s).alt = flagAfter altKeys s.alt stroke := by
  obtain ⟨s',shift,ctrl,alt,same⟩ := stroke_last s stroke
  obtain ⟨code,made⟩ := last_bits stroke
  have flags := irq_flags s' stroke.last
  have is (c : BitVec 7) : (stroke.key.code.setWidth 8 : Byte) = c.setWidth 8 ↔ stroke.key.code = c := code_eq _ c
  rw [code,made,shift,ctrl,alt] at flags
  rw [same]
  refine ⟨flags.1.trans ?_,flags.2.1.trans ?_,flags.2.2.trans ?_⟩
  · exact if_congr (or_congr (is 0x2A) (is 0x36)) rfl rfl
  · exact if_congr ((is 0x1D).trans (or_self_iff).symm) rfl rfl
  · exact if_congr ((is 0x38).trans (or_self_iff).symm) rfl rfl

/-- The handler, and the keys that are down. -/
structure World where
  handler : Handler
  down : Key → Bool

/-- Before the first byte; the callback may have been set. -/
def boot (callback : Option (List Byte)) : World := ⟨⟨emptyRing,false,false,false,false,callback⟩,fun _ => false⟩

def World.step (w : World) (stroke : Stroke) : World :=
  ⟨stroke.bytes.foldl blackKbIrqHandler w.handler,Function.update w.down stroke.key stroke.down⟩

structure Reflects (w : World) : Prop where
  shift : w.handler.shift = true ↔ Held shiftKeys w.down
  ctrl : w.handler.ctrl = true ↔ Held ctrlKeys w.down
  alt : w.handler.alt = true ↔ Held altKeys w.down

structure AllPlain (w : World) (stroke : Stroke) : Prop where
  shift : Plain shiftKeys w.down stroke
  ctrl : Plain ctrlKeys w.down stroke
  alt : Plain altKeys w.down stroke

theorem boot_reflects (callback : Option (List Byte)) : Reflects (boot callback) := by
  have none_ (m : Modifier) : false = true ↔ Held m fun _ => false :=
    iff_of_false Bool.false_ne_true fun held => held.elim Bool.false_ne_true Bool.false_ne_true
  exact ⟨none_ shiftKeys,none_ ctrlKeys,none_ altKeys⟩

theorem step_reflects (w : World) (reflects : Reflects w) (stroke : Stroke) :
    Reflects (w.step stroke) ↔ AllPlain w stroke := by
  obtain ⟨shift,ctrl,alt⟩ := stroke_flags w.handler stroke
  have one (m : Modifier) (flag after : Bool) (agree : flag = true ↔ Held m w.down)
      (made : after = flagAfter m flag stroke) : (after = true ↔ Held m (w.step stroke).down) ↔ Plain m w.down stroke := by
    rw [made]
    exact plain_iff m w.down flag agree stroke
  have first := one shiftKeys _ _ reflects.shift shift
  have second := one ctrlKeys _ _ reflects.ctrl ctrl
  have third := one altKeys _ _ reflects.alt alt
  exact ⟨fun after => ⟨first.mp after.shift,second.mp after.ctrl,third.mp after.alt⟩,
    fun plain => ⟨first.mpr plain.shift,second.mpr plain.ctrl,third.mpr plain.alt⟩⟩

/-- After every stroke of a stream each flag says whether a key of its modifier is down, exactly when all strokes
are plain. -/
theorem modifiers_held_iff (callback : Option (List Byte)) (strokes : List Stroke) :
    Throughout World.step (fun w stroke => Reflects (w.step stroke)) (boot callback) strokes ↔
      Throughout World.step AllPlain (boot callback) strokes :=
  throughout_iff World.step _ AllPlain Reflects (fun w stroke reflects => step_reflects w reflects stroke)
    (fun w stroke reflects plain => (step_reflects w reflects stroke).mpr plain) (boot callback)
    (boot_reflects callback) strokes

/-- Both Shift keys go down and the right one comes up: the left one is down still. -/
theorem modifier_dropped : ¬Throughout World.step (fun w stroke => Reflects (w.step stroke)) (boot none)
    [.press shiftKeys.left,.press shiftKeys.right,.release shiftKeys.right] := by
  intro held
  have flag := held.2.2.1.shift.mpr (.inl rfl)
  exact absurd flag (by decide)

end BlackOS.Keyboard
