import BlackOS.Library.Canvas
import BlackOS.Library.Ram

/-! Drawing of `kernel/drivers/framebuffer/framebuffer.c`. An `int` is an integer, as a sum that leaves its range is
undefined; what lies behind the buffers is part of them, so that a write past the end is seen. -/
namespace BlackOS.Fb
open BlackOS.Library.Canvas
open BlackOS.Library.Ram (Byte Word)

/-- The glyphs of `black_font_8x8`; the others are zero. -/
def blackFont8x8 : List (Nat × List Byte) := [
  (0x20,[0x00,0x00,0x00,0x00,0x00,0x00,0x00,0x00]),
  (0x21,[0x18,0x18,0x18,0x18,0x18,0x00,0x18,0x00]),
  (0x30,[0x3C,0x66,0x6E,0x76,0x66,0x66,0x3C,0x00]),
  (0x31,[0x18,0x38,0x18,0x18,0x18,0x18,0x7E,0x00]),
  (0x32,[0x3C,0x66,0x06,0x0C,0x18,0x30,0x7E,0x00]),
  (0x33,[0x3C,0x66,0x06,0x1C,0x06,0x66,0x3C,0x00]),
  (0x34,[0x0C,0x1C,0x2C,0x4C,0x7E,0x0C,0x0C,0x00]),
  (0x35,[0x7E,0x60,0x7C,0x06,0x06,0x66,0x3C,0x00]),
  (0x36,[0x3C,0x60,0x7C,0x66,0x66,0x66,0x3C,0x00]),
  (0x37,[0x7E,0x06,0x0C,0x18,0x18,0x18,0x18,0x00]),
  (0x38,[0x3C,0x66,0x66,0x3C,0x66,0x66,0x3C,0x00]),
  (0x39,[0x3C,0x66,0x66,0x3E,0x06,0x0C,0x38,0x00]),
  (0x41,[0x3C,0x66,0x66,0x7E,0x66,0x66,0x66,0x00]),
  (0x42,[0x7C,0x66,0x66,0x7C,0x66,0x66,0x7C,0x00]),
  (0x43,[0x3C,0x66,0x60,0x60,0x60,0x66,0x3C,0x00]),
  (0x44,[0x78,0x6C,0x66,0x66,0x66,0x6C,0x78,0x00]),
  (0x45,[0x7E,0x60,0x60,0x7C,0x60,0x60,0x7E,0x00]),
  (0x46,[0x7E,0x60,0x60,0x7C,0x60,0x60,0x60,0x00]),
  (0x47,[0x3C,0x66,0x60,0x6E,0x66,0x66,0x3E,0x00]),
  (0x48,[0x66,0x66,0x66,0x7E,0x66,0x66,0x66,0x00]),
  (0x49,[0x3C,0x18,0x18,0x18,0x18,0x18,0x3C,0x00]),
  (0x4A,[0x0E,0x06,0x06,0x06,0x06,0x66,0x3C,0x00]),
  (0x4B,[0x66,0x6C,0x78,0x70,0x78,0x6C,0x66,0x00]),
  (0x4C,[0x60,0x60,0x60,0x60,0x60,0x60,0x7E,0x00]),
  (0x4D,[0x63,0x77,0x7F,0x6B,0x63,0x63,0x63,0x00]),
  (0x4E,[0x66,0x76,0x7E,0x7E,0x6E,0x66,0x66,0x00]),
  (0x4F,[0x3C,0x66,0x66,0x66,0x66,0x66,0x3C,0x00]),
  (0x50,[0x7C,0x66,0x66,0x7C,0x60,0x60,0x60,0x00]),
  (0x51,[0x3C,0x66,0x66,0x66,0x6A,0x6C,0x36,0x00]),
  (0x52,[0x7C,0x66,0x66,0x7C,0x6C,0x66,0x66,0x00]),
  (0x53,[0x3C,0x66,0x60,0x3C,0x06,0x66,0x3C,0x00]),
  (0x54,[0x7E,0x18,0x18,0x18,0x18,0x18,0x18,0x00]),
  (0x55,[0x66,0x66,0x66,0x66,0x66,0x66,0x3C,0x00]),
  (0x56,[0x66,0x66,0x66,0x66,0x66,0x3C,0x18,0x00]),
  (0x57,[0x63,0x63,0x63,0x6B,0x7F,0x77,0x63,0x00]),
  (0x58,[0x66,0x66,0x3C,0x18,0x3C,0x66,0x66,0x00]),
  (0x59,[0x66,0x66,0x66,0x3C,0x18,0x18,0x18,0x00]),
  (0x5A,[0x7E,0x06,0x0C,0x18,0x30,0x60,0x7E,0x00]),
  (0x61,[0x00,0x00,0x3C,0x06,0x3E,0x66,0x3E,0x00]),
  (0x62,[0x60,0x60,0x7C,0x66,0x66,0x66,0x7C,0x00]),
  (0x63,[0x00,0x00,0x3C,0x60,0x60,0x60,0x3C,0x00]),
  (0x64,[0x06,0x06,0x3E,0x66,0x66,0x66,0x3E,0x00]),
  (0x65,[0x00,0x00,0x3C,0x66,0x7E,0x60,0x3C,0x00]),
  (0x66,[0x1C,0x30,0x7C,0x30,0x30,0x30,0x30,0x00]),
  (0x67,[0x00,0x00,0x3E,0x66,0x66,0x3E,0x06,0x3C]),
  (0x68,[0x60,0x60,0x7C,0x66,0x66,0x66,0x66,0x00]),
  (0x69,[0x18,0x00,0x38,0x18,0x18,0x18,0x3C,0x00]),
  (0x6B,[0x60,0x60,0x66,0x6C,0x78,0x6C,0x66,0x00]),
  (0x6C,[0x38,0x18,0x18,0x18,0x18,0x18,0x3C,0x00]),
  (0x6D,[0x00,0x00,0x76,0x7F,0x6B,0x63,0x63,0x00]),
  (0x6E,[0x00,0x00,0x7C,0x66,0x66,0x66,0x66,0x00]),
  (0x6F,[0x00,0x00,0x3C,0x66,0x66,0x66,0x3C,0x00]),
  (0x70,[0x00,0x00,0x7C,0x66,0x66,0x7C,0x60,0x60]),
  (0x72,[0x00,0x00,0x6C,0x76,0x60,0x60,0x60,0x00]),
  (0x73,[0x00,0x00,0x3E,0x60,0x3C,0x06,0x7C,0x00]),
  (0x74,[0x30,0x30,0x7C,0x30,0x30,0x30,0x1C,0x00]),
  (0x75,[0x00,0x00,0x66,0x66,0x66,0x66,0x3E,0x00]),
  (0x76,[0x00,0x00,0x66,0x66,0x66,0x3C,0x18,0x00]),
  (0x77,[0x00,0x00,0x63,0x6B,0x7F,0x7F,0x36,0x00]),
  (0x78,[0x00,0x00,0x66,0x3C,0x18,0x3C,0x66,0x00]),
  (0x79,[0x00,0x00,0x66,0x66,0x3E,0x06,0x3C,0x00]),
  (0x7A,[0x00,0x00,0x7E,0x0C,0x18,0x30,0x7E,0x00]),
  (0x3A,[0x00,0x18,0x18,0x00,0x18,0x18,0x00,0x00]),
  (0x2F,[0x02,0x06,0x0C,0x18,0x30,0x60,0x40,0x00]),
  (0x2D,[0x00,0x00,0x00,0x7E,0x00,0x00,0x00,0x00]),
  (0x5F,[0x00,0x00,0x00,0x00,0x00,0x00,0x7E,0x00]),
  (0x2E,[0x00,0x00,0x00,0x00,0x00,0x18,0x18,0x00]),
  (0x24,[0x18,0x3E,0x60,0x3C,0x06,0x7C,0x18,0x00]),
  (0x40,[0x3C,0x66,0x6E,0x6E,0x60,0x62,0x3C,0x00]),
  (0x5B,[0x3C,0x30,0x30,0x30,0x30,0x30,0x3C,0x00]),
  (0x5D,[0x3C,0x0C,0x0C,0x0C,0x0C,0x0C,0x3C,0x00]),
  (0x3D,[0x00,0x00,0x7E,0x00,0x7E,0x00,0x00,0x00]),
  (0x3E,[0x60,0x30,0x18,0x0C,0x18,0x30,0x60,0x00]),
  (0x3C,[0x06,0x0C,0x18,0x30,0x18,0x0C,0x06,0x00]),
  (0x28,[0x0C,0x18,0x30,0x30,0x30,0x18,0x0C,0x00]),
  (0x29,[0x30,0x18,0x0C,0x0C,0x0C,0x18,0x30,0x00]),
  (0x7C,[0x18,0x18,0x18,0x18,0x18,0x18,0x18,0x00])]

def glyph (idx : Nat) (row : Nat) : Byte := ((blackFont8x8.lookup idx).getD []).getD row 0

/-- `black_framebuffer_t`; the buffers are counted in pixels. -/
structure Framebuffer where
  addr : Option (Nat → Word)
  backbuffer : Option (Nat → Word)
  width : Word
  height : Word
  pitch : Word
  bpp : Byte

def Framebuffer.stride (fb : Framebuffer) : Word := fb.pitch / 4

def blackFbPutpixel (fb : Framebuffer) (x y : Int) (c : Word) : Framebuffer :=
  if x < 0 ∨ y < 0 ∨ (fb.width.toNat : Int) ≤ x ∨ (fb.height.toNat : Int) ≤ y then fb
  else
    match fb.backbuffer with
    | none => fb
    | some bb =>
      {fb with backbuffer := some (Function.update bb (BitVec.ofInt 32 y * fb.stride + BitVec.ofInt 32 x).toNat c)}

def blackFbFillrect (fb : Framebuffer) (x y w h : Int) (c : Word) : Framebuffer :=
  (List.range h.toNat).foldl (fun fb j => (List.range w.toNat).foldl (fun fb i =>
    blackFbPutpixel fb (x + (i : Nat)) (y + (j : Nat)) c) fb) fb

def glyphIndex (ch : Byte) : Nat := if ch.toNat ≥ 128 then 0x3F else ch.toNat

def glyphColor (ch : Byte) (fg bg : Word) (col row : Nat) : Word :=
  if glyph (glyphIndex ch) row &&& (0x80 >>> col) ≠ 0 then fg else bg

def blackFbDrawchar (fb : Framebuffer) (x y : Int) (ch : Byte) (fg bg : Word) : Framebuffer :=
  (List.range 8).foldl (fun fb row => (List.range 8).foldl (fun fb col =>
    blackFbPutpixel fb (x + (col : Nat)) (y + (row : Nat)) (glyphColor ch fg bg col row)) fb) fb

/-- The characters of a string up to its end. -/
def blackFbDrawstring (fb : Framebuffer) (x y : Int) : List Byte → Word → Word → Framebuffer
  | [],_,_ => fb
  | ch::s,fg,bg => blackFbDrawstring (blackFbDrawchar fb x y ch fg bg) (x + 8) y s fg bg

def blackFbSwap (fb : Framebuffer) : Framebuffer :=
  match fb.backbuffer,fb.addr with
  | some bb,some screen => {fb with addr := some fun i => if i < (fb.pitch * fb.height).toNat / 4 then bb i else screen i}
  | _,_ => fb

def blackFbClear (fb : Framebuffer) (c : Word) : Framebuffer :=
  match fb.backbuffer with
  | none => fb
  | some bb => {fb with backbuffer := some fun i => if i < (fb.stride * fb.height).toNat then c else bb i}

def blackFbBlit (fb : Framebuffer) (dx dy w h : Int) (src : Nat → Word) : Framebuffer :=
  (List.range h.toNat).foldl (fun fb j => (List.range w.toNat).foldl (fun fb i =>
    blackFbPutpixel fb (dx + (i : Nat)) (dy + (j : Nat)) (src (j * w.toNat + i))) fb) fb

def blackFbScrollUp (fb : Framebuffer) (lines : Int) (bg : Word) : Framebuffer :=
  match fb.backbuffer with
  | none => fb
  | some bb =>
    let pixels : Word := BitVec.ofInt 32 (lines * 8)
    let bytes := (fb.height - pixels) * fb.stride * 4
    let moved := fun i => if i < bytes.toNat / 4 then bb (i + (pixels * fb.stride).toNat) else bb i
    let first := (fb.height - pixels).toNat
    let bb := (List.range (fb.height.toNat - first)).foldl (fun bb k => (List.range fb.width.toNat).foldl (fun bb x =>
      Function.update bb ((BitVec.ofNat 32 (first + k)) * fb.stride + BitVec.ofNat 32 x).toNat bg) bb) moved
    {fb with backbuffer := some bb}

/-- A call of the functions that draw. -/
inductive Draw
  | pixel (x y : Int) (c : Word)
  | rect (x y w h : Int) (c : Word)
  | char (x y : Int) (ch : Byte) (fg bg : Word)
  | string (x y : Int) (s : List Byte) (fg bg : Word)
  | blit (dx dy w h : Int) (src : Nat → Word)
  | clear (c : Word)
  | scroll (lines : Int) (bg : Word)

def draw (fb : Framebuffer) : Draw → Framebuffer
  | .pixel x y c => blackFbPutpixel fb x y c
  | .rect x y w h c => blackFbFillrect fb x y w h c
  | .char x y ch fg bg => blackFbDrawchar fb x y ch fg bg
  | .string x y s fg bg => blackFbDrawstring fb x y s fg bg
  | .blit dx dy w h src => blackFbBlit fb dx dy w h src
  | .clear c => blackFbClear fb c
  | .scroll lines bg => blackFbScrollUp fb lines bg

/-- The same calls on an endless plane; `height` is where the part of it that is seen ends. -/
def paintString (p : Plane Word) (x y : Int) : List Byte → Word → Word → Plane Word
  | [],_,_ => p
  | ch::s,fg,bg => paintString (paint p x y 8 8 (glyphColor ch fg bg)) (x + 8) y s fg bg

def painted (height : Int) (p : Plane Word) : Draw → Plane Word
  | .pixel x y c => set p x y c
  | .rect x y w h c => paint p x y w.toNat h.toNat fun _ _ => c
  | .char x y ch fg bg => paint p x y 8 8 (glyphColor ch fg bg)
  | .string x y s fg bg => paintString p x y s fg bg
  | .blit dx dy w h src => paint p dx dy w.toNat h.toNat fun i j => src (j * w.toNat + i)
  | .clear c => fun _ _ => c
  | .scroll lines bg => fun a b => if b < height - lines * 8 then p a (b + lines * 8) else bg

/-- A scroll moves at most what there is. -/
def Draw.Sound (height : Int) : Draw → Prop
  | .scroll lines _ => 0 ≤ lines ∧ lines * 8 ≤ height
  | _ => True

/-- A mode with four bytes for each pixel whose buffer has an address of 32 bits. -/
structure Fits (fb : Framebuffer) : Prop where
  rows : 4 * fb.width.toNat ≤ fb.pitch.toNat
  size : fb.pitch.toNat * fb.height.toNat < 2^32

/-- The points of the plane that are seen are those of the buffer, and behind it nothing has changed. -/
structure Clips (first fb : Framebuffer) (p : Plane Word) : Prop where
  mode : fb.width = first.width ∧ fb.height = first.height ∧ fb.pitch = first.pitch ∧ fb.addr = first.addr
  buffer : ∃ bb bb₀, fb.backbuffer = some bb ∧ first.backbuffer = some bb₀ ∧
    (∀ x < first.width.toNat, ∀ y < first.height.toNat, bb (y * (first.pitch.toNat / 4) + x) = p x y) ∧
    ∀ i ≥ first.pitch.toNat / 4 * first.height.toNat, bb i = bb₀ i

section Mode
variable (first : Framebuffer) (fits : Fits first)

theorem stride_toNat (fb : Framebuffer) (same : fb.pitch = first.pitch) : fb.stride.toNat = first.pitch.toNat / 4 := by
  rw [Framebuffer.stride,same,BitVec.toNat_udiv]
  rfl

include fits

theorem width_le : first.width.toNat ≤ first.pitch.toNat / 4 := by
  have rows := fits.rows
  omega

theorem size_lt : first.pitch.toNat / 4 * first.height.toNat * 4 < 2^32 := by
  have size := fits.size
  have less : first.pitch.toNat / 4 * 4 ≤ first.pitch.toNat := Nat.div_mul_le_self _ _
  have product := Nat.mul_le_mul_right first.height.toNat less
  rw [Nat.mul_right_comm] at product
  omega

/-- The place of a pixel that is seen, and it is not behind the buffer. -/
theorem place_lt (x y : Nat) (left : x < first.width.toNat) (above : y < first.height.toNat) :
    y * (first.pitch.toNat / 4) + x < first.pitch.toNat / 4 * first.height.toNat := by
  have wide := width_le first fits
  have last : (y + 1) * (first.pitch.toNat / 4) ≤ first.height.toNat * (first.pitch.toNat / 4) := Nat.mul_le_mul_right _ above
  rw [Nat.succ_mul] at last
  rw [Nat.mul_comm (first.pitch.toNat / 4)]
  omega

theorem place_toNat (fb : Framebuffer) (same : fb.pitch = first.pitch) (x y : Nat) (left : x < first.width.toNat)
    (above : y < first.height.toNat) :
    (BitVec.ofNat 32 y * fb.stride + BitVec.ofNat 32 x).toNat = y * (first.pitch.toNat / 4) + x := by
  have inside := place_lt first fits x y left above
  have small := size_lt first fits
  have y32 := first.height.isLt
  have x32 := first.width.isLt
  rw [BitVec.toNat_add,BitVec.toNat_mul,stride_toNat first fb same,BitVec.toNat_ofNat,BitVec.toNat_ofNat,
    Nat.mod_eq_of_lt (by omega : y < 2^32),Nat.mod_eq_of_lt (by omega : x < 2^32),
    Nat.mod_eq_of_lt (by omega : y * (first.pitch.toNat / 4) < 2^32),Nat.mod_eq_of_lt (by omega)]

/-- Two pixels that are seen have two places. -/
theorem place_inj (x y x' y' : Nat) (left : x < first.width.toNat) (left' : x' < first.width.toNat)
    (same : y * (first.pitch.toNat / 4) + x = y' * (first.pitch.toNat / 4) + x') : x = x' ∧ y = y' := by
  have wide := width_le first fits
  have column : x = x' := by
    have low := congrArg (· % (first.pitch.toNat / 4)) same
    simp only [Nat.mul_add_mod_self_right] at low
    rwa [Nat.mod_eq_of_lt (by omega),Nat.mod_eq_of_lt (by omega)] at low
  refine ⟨column,?_⟩
  rw [column] at same
  exact Nat.eq_of_mul_eq_mul_right (by omega) (Nat.add_right_cancel same)

theorem putpixel_clips (fb : Framebuffer) (p : Plane Word) (clips : Clips first fb p) (x y : Int) (c : Word) :
    Clips first (blackFbPutpixel fb x y c) (set p x y c) := by
  obtain ⟨⟨width,height,pitch,addr⟩,bb,bb₀,some_,some₀,seen,behind⟩ := clips
  unfold blackFbPutpixel
  rw [width,height,some_]
  split
  · rename_i outside
    refine ⟨⟨width,height,pitch,addr⟩,bb,bb₀,some_,some₀,fun a left b above => ?_,behind⟩
    rw [seen a left b above]
    exact (if_neg (by omega)).symm
  · rename_i inside
    obtain ⟨x,rfl⟩ := Int.eq_ofNat_of_zero_le (by omega : 0 ≤ x)
    obtain ⟨y,rfl⟩ := Int.eq_ofNat_of_zero_le (by omega : 0 ≤ y)
    have left : x < first.width.toNat := by omega
    have above : y < first.height.toNat := by omega
    have place : (BitVec.ofInt 32 (y : Int) * fb.stride + BitVec.ofInt 32 (x : Int)).toNat =
        y * (first.pitch.toNat / 4) + x := by
      rw [BitVec.ofInt_natCast,BitVec.ofInt_natCast]
      exact place_toNat first fits fb pitch x y left above
    have low := place_lt first fits x y left above
    dsimp only
    rw [place]
    refine ⟨⟨rfl,rfl,pitch,addr⟩,_,bb₀,rfl,some₀,fun a left' b above' => ?_,fun i far => ?_⟩
    · by_cases here : a = x ∧ b = y
      · rw [here.1,here.2,Function.update_self]
        exact (if_pos ⟨rfl,rfl⟩).symm
      · have other : b * (first.pitch.toNat / 4) + a ≠ y * (first.pitch.toNat / 4) + x :=
          fun same => here (place_inj first fits a b x y left' left same)
        rw [Function.update_of_ne other,seen a left' b above']
        exact (if_neg (by omega)).symm
    · rw [Function.update_of_ne (by omega)]
      exact behind i far

/-- Two loops over pixels. -/
theorem loops_clips (fb : Framebuffer) (p : Plane Word) (clips : Clips first fb p) (x y : Int) (w h : Nat) (f : Nat → Nat → Word) :
    Clips first ((List.range h).foldl (fun fb j => (List.range w).foldl (fun fb i =>
      blackFbPutpixel fb (x + (i : Nat)) (y + (j : Nat)) (f i j)) fb) fb) (paint p x y w h f) := by
  rw [← paint_rows]
  refine List.foldl_rel clips fun j _ fb p row => ?_
  exact List.foldl_rel row fun i _ fb p pixel => putpixel_clips first fits fb p pixel _ _ _

theorem drawstring_clips (s : List Byte) (fb : Framebuffer) (p : Plane Word) (clips : Clips first fb p) (x y : Int) (fg bg : Word) :
    Clips first (blackFbDrawstring fb x y s fg bg) (paintString p x y s fg bg) := by
  induction s generalizing fb p x with
  | nil => exact clips
  | cons ch s ih => exact ih _ _ (loops_clips first fits fb p clips x y 8 8 (glyphColor ch fg bg)) (x + 8)

theorem clear_clips (fb : Framebuffer) (p : Plane Word) (clips : Clips first fb p) (c : Word) :
    Clips first (blackFbClear fb c) fun _ _ => c := by
  obtain ⟨⟨width,height,pitch,addr⟩,bb,bb₀,some_,some₀,seen,behind⟩ := clips
  have small := size_lt first fits
  have total : (fb.stride * fb.height).toNat = first.pitch.toNat / 4 * first.height.toNat := by
    rw [BitVec.toNat_mul,stride_toNat first fb pitch,height,Nat.mod_eq_of_lt (by omega)]
  unfold blackFbClear
  rw [some_]
  refine ⟨⟨width,height,pitch,addr⟩,_,bb₀,rfl,some₀,fun x left y above => ?_,fun i far => ?_⟩
  · exact if_pos (by rw [total]; exact place_lt first fits x y left above)
  · rw [total,if_neg (by omega)]
    exact behind i far

end Mode

theorem Clips.congr {first fb : Framebuffer} {p q : Plane Word} (clips : Clips first fb p)
    (same : ∀ x < first.width.toNat, ∀ y < first.height.toNat, q x y = p x y) : Clips first fb q := by
  obtain ⟨mode,bb,bb₀,some_,some₀,seen,behind⟩ := clips
  refine ⟨mode,bb,bb₀,some_,some₀,fun x left y above => ?_,behind⟩
  rw [same x left y above]
  exact seen x left y above

/-- A store at a place that is seen is what `black_fb_putpixel` does. -/
theorem store_putpixel (fb : Framebuffer) (bb : Nat → Word) (x y : Nat) (left : x < fb.width.toNat) (above : y < fb.height.toNat)
    (c : Word) : blackFbPutpixel {fb with backbuffer := some bb} x y c =
      {fb with backbuffer := some (Function.update bb (BitVec.ofNat 32 y * fb.stride + BitVec.ofNat 32 x).toNat c)} := by
  have inside : ¬((x : Int) < 0 ∨ (y : Int) < 0 ∨ (fb.width.toNat : Int) ≤ x ∨ (fb.height.toNat : Int) ≤ y) := by omega
  unfold blackFbPutpixel
  dsimp only
  rw [if_neg inside,BitVec.ofInt_natCast,BitVec.ofInt_natCast]
  rfl

/-- The second loop of `black_fb_scroll_up` as calls of `black_fb_putpixel`. -/
theorem free_rows (fb : Framebuffer) (bg : Word) (bb : Nat → Word) (start rows : Nat) (below : start + rows ≤ fb.height.toNat) :
    {fb with backbuffer := some ((List.range rows).foldl (fun bb k => (List.range fb.width.toNat).foldl (fun bb x =>
      Function.update bb ((BitVec.ofNat 32 (start + k)) * fb.stride + BitVec.ofNat 32 x).toNat bg) bb) bb)} =
    (List.range rows).foldl (fun fb' j => (List.range fb.width.toNat).foldl (fun fb' i =>
      blackFbPutpixel fb' ((0 : Int) + (i : Nat)) ((start : Int) + (j : Nat)) bg) fb') {fb with backbuffer := some bb} := by
  let Is (bb : Nat → Word) (fb' : Framebuffer) : Prop := {fb with backbuffer := some bb} = fb'
  refine List.foldl_rel (r := Is) rfl fun k row bb fb' same => ?_
  refine List.foldl_rel (r := Is) same fun x column bb fb' same => ?_
  have left := List.mem_range.mp column
  have low := List.mem_range.mp row
  have place : (start : Int) + (k : Nat) = ((start + k : Nat) : Int) := by omega
  subst same
  rw [place,Int.zero_add,store_putpixel fb bb x (start + k) left (by omega) bg]

section Scroll
variable (first : Framebuffer) (fits : Fits first) (fb : Framebuffer) (p : Plane Word) (clips : Clips first fb p) (lines : Int)
  (bg : Word) (positive : 0 ≤ lines) (enough : lines * 8 ≤ first.height.toNat)
include fits clips positive enough

theorem scroll_clips : Clips first (blackFbScrollUp fb lines bg) (painted first.height.toNat p (.scroll lines bg)) := by
  obtain ⟨⟨width,height,pitch,addr⟩,bb,bb₀,some_,some₀,seen,behind⟩ := clips
  obtain ⟨lines,rfl⟩ := Int.eq_ofNat_of_zero_le positive
  let rows := first.height.toNat - lines * 8
  let width_ := first.pitch.toNat / 4
  have tall := first.height.isLt
  have most : lines * 8 ≤ first.height.toNat := by omega
  have small : width_ * first.height.toNat * 4 < 2^32 := size_lt first fits
  have wide : first.width.toNat ≤ width_ := width_le first fits
  have stride : fb.stride.toNat = width_ := stride_toNat first fb pitch
  have split : rows * width_ + lines * 8 * width_ = width_ * first.height.toNat := by
    rw [← Nat.add_mul,Nat.mul_comm width_]
    exact congrArg (· * width_) (Nat.sub_add_cancel most)
  have pixels : (BitVec.ofInt 32 ((lines : Int) * 8)).toNat = lines * 8 := by
    have cast : (lines : Int) * 8 = ((lines * 8 : Nat) : Int) := by omega
    rw [cast,BitVec.ofInt_natCast,BitVec.toNat_ofNat,Nat.mod_eq_of_lt (by omega)]
  have start : (fb.height - BitVec.ofInt 32 ((lines : Int) * 8)).toNat = rows := by
    rw [height,BitVec.toNat_sub_of_le (by rw [BitVec.le_def,pixels]; exact most),pixels]
  have bytes : ((fb.height - BitVec.ofInt 32 ((lines : Int) * 8)) * fb.stride * 4).toNat / 4 = rows * width_ := by
    have four : (4 : Word).toNat = 4 := rfl
    rw [BitVec.toNat_mul,BitVec.toNat_mul,start,stride,four,Nat.mod_eq_of_lt (by omega : rows * width_ < 2^32),
      Nat.mod_eq_of_lt (by omega)]
    omega
  have offset : (BitVec.ofInt 32 ((lines : Int) * 8) * fb.stride).toNat = lines * 8 * width_ := by
    rw [BitVec.toNat_mul,pixels,stride,Nat.mod_eq_of_lt (by omega)]
  let moved (i : Nat) : Word := if i < rows * width_ then bb (i + lines * 8 * width_) else bb i
  let shifted : Plane Word := fun a b => if b < rows then p a (b + (lines : Int) * 8) else p a b
  have shape : blackFbScrollUp fb lines bg =
      (List.range (lines * 8)).foldl (fun fb' j => (List.range first.width.toNat).foldl (fun fb' i =>
        blackFbPutpixel fb' ((0 : Int) + (i : Nat)) ((rows : Int) + (j : Nat)) bg) fb') {fb with backbuffer := some moved} := by
    have count : fb.height.toNat - rows = lines * 8 := by
      rw [height]
      omega
    rw [← width,← free_rows fb bg moved rows (lines * 8) (by rw [height]; omega)]
    unfold blackFbScrollUp
    rw [some_]
    dsimp only
    rw [bytes,offset,start,count]
  have moves : Clips first {fb with backbuffer := some moved} shifted := by
    refine ⟨⟨width,height,pitch,addr⟩,moved,bb₀,rfl,some₀,fun x left y above => ?_,fun i far => ?_⟩
    · by_cases upper : y < rows
      · have next : (y + 1) * width_ ≤ rows * width_ := Nat.mul_le_mul_right _ upper
        rw [Nat.succ_mul] at next
        have place : y * width_ + x + lines * 8 * width_ = (y + lines * 8) * width_ + x := by
          rw [Nat.add_mul]
          omega
        have same := seen x left (y + lines * 8) (by omega)
        have cast : ((y + lines * 8 : Nat) : Int) = y + (lines : Int) * 8 := by omega
        have low : y * width_ + x < rows * width_ := by omega
        rw [cast] at same
        change (if y * width_ + x < rows * width_ then bb (y * width_ + x + lines * 8 * width_) else bb (y * width_ + x)) =
          if (y : Int) < rows then p x (y + (lines : Int) * 8) else p x y
        rw [if_pos low,if_pos (by omega),place]
        exact same
      · have before : rows * width_ ≤ y * width_ := Nat.mul_le_mul_right _ (Nat.le_of_not_lt upper)
        change (if y * width_ + x < rows * width_ then bb (y * width_ + x + lines * 8 * width_) else bb (y * width_ + x)) =
          if (y : Int) < rows then p x (y + (lines : Int) * 8) else p x y
        rw [if_neg (by omega),if_neg (by omega)]
        exact seen x left y above
    · have last : width_ * first.height.toNat ≤ i := far
      have beyond : ¬i < rows * width_ := by omega
      exact (if_neg beyond).trans (behind i far)
  have painted_ := loops_clips first fits _ _ moves 0 rows first.width.toNat (lines * 8) fun _ _ => bg
  rw [shape]
  refine painted_.congr fun x left y above => ?_
  have top : (first.height.toNat : Int) - (lines : Int) * 8 = rows := by omega
  change (if (y : Int) < first.height.toNat - (lines : Int) * 8 then p x (y + (lines : Int) * 8) else bg) = _
  rw [top]
  by_cases upper : (y : Int) < rows
  · rw [if_pos upper,paint_outside _ _ _ _ _ _ _ _ (by omega)]
    exact (if_pos upper).symm
  · rw [if_neg upper]
    exact (if_pos (by omega)).symm

end Scroll

theorem draw_clips (first : Framebuffer) (fits : Fits first) (fb : Framebuffer) (p : Plane Word) (clips : Clips first fb p)
    (d : Draw) (sound : d.Sound first.height.toNat) : Clips first (draw fb d) (painted first.height.toNat p d) := by
  cases d with
  | pixel x y c => exact putpixel_clips first fits fb p clips x y c
  | rect x y w h c => exact loops_clips first fits fb p clips x y w.toNat h.toNat fun _ _ => c
  | char x y ch fg bg => exact loops_clips first fits fb p clips x y 8 8 (glyphColor ch fg bg)
  | string x y s fg bg => exact drawstring_clips first fits s fb p clips x y fg bg
  | blit dx dy w h src => exact loops_clips first fits fb p clips dx dy w.toNat h.toNat fun i j => src (j * w.toNat + i)
  | clear c => exact clear_clips first fits fb p clips c
  | scroll lines bg => exact scroll_clips first fits fb p clips lines bg sound.1 sound.2

/-- What is seen of the plane is shown once the buffers are swapped. -/
theorem swap_shows (first : Framebuffer) (fits : Fits first) (fb : Framebuffer) (p : Plane Word) (clips : Clips first fb p)
    (screen : Nat → Word) (there : first.addr = some screen) : ∃ shown, (blackFbSwap fb).addr = some shown ∧
      (∀ x < first.width.toNat, ∀ y < first.height.toNat, shown (y * (first.pitch.toNat / 4) + x) = p x y) ∧
      ∀ i ≥ first.pitch.toNat * first.height.toNat / 4, shown i = screen i := by
  obtain ⟨⟨width,height,pitch,addr⟩,bb,bb₀,some_,some₀,seen,behind⟩ := clips
  have total : (fb.pitch * fb.height).toNat = first.pitch.toNat * first.height.toNat := by
    rw [BitVec.toNat_mul,pitch,height,Nat.mod_eq_of_lt fits.size]
  have most : first.pitch.toNat / 4 * first.height.toNat ≤ first.pitch.toNat * first.height.toNat / 4 := by
    rw [Nat.le_div_iff_mul_le (by decide),Nat.mul_right_comm]
    exact Nat.mul_le_mul_right _ (Nat.div_mul_le_self _ _)
  unfold blackFbSwap
  rw [some_,addr,there]
  refine ⟨_,rfl,fun x left y above => ?_,fun i far => ?_⟩
  · have inside := place_lt first fits x y left above
    exact (if_pos (by rw [total]; omega)).trans (seen x left y above)
  · exact if_neg (by rw [total]; omega)

/-- Every list of drawing calls paints an endless plane, of which the buffer holds what is seen: what a call draws beyond an
edge is cut off, and the store behind the buffer is not written. The next swap shows it. -/
theorem drawing_clips (first : Framebuffer) (fits : Fits first) (bb₀ screen : Nat → Word) (there : first.backbuffer = some bb₀)
    (mapped : first.addr = some screen) (p : Plane Word)
    (holds : ∀ x < first.width.toNat, ∀ y < first.height.toNat, bb₀ (y * (first.pitch.toNat / 4) + x) = p x y)
    (draws : List Draw) (sound : ∀ d ∈ draws, d.Sound first.height.toNat) :
    Clips first (draws.foldl draw first) (draws.foldl (painted first.height.toNat) p) ∧
      ∃ shown, (blackFbSwap (draws.foldl draw first)).addr = some shown ∧
        (∀ x < first.width.toNat, ∀ y < first.height.toNat,
          shown (y * (first.pitch.toNat / 4) + x) = draws.foldl (painted first.height.toNat) p x y) ∧
        ∀ i ≥ first.pitch.toNat * first.height.toNat / 4, shown i = screen i := by
  have begins : Clips first first p := ⟨⟨rfl,rfl,rfl,rfl⟩,bb₀,bb₀,there,there,holds,fun _ _ => rfl⟩
  have clips : Clips first (draws.foldl draw first) (draws.foldl (painted first.height.toNat) p) :=
    List.foldl_rel begins fun d listed fb q before => draw_clips first fits fb q before d (sound d listed)
  exact ⟨clips,swap_shows first fits _ _ clips screen mapped⟩

/-- A mode of four by four pixels. -/
def tiny : Framebuffer := ⟨some fun _ => 0,some fun _ => 0,4,4,16,32⟩

theorem drawing_clips_tiny : ∃ shown, (blackFbSwap ([Draw.rect (-1) (-1) 2 2 7,.scroll 0 5].foldl draw tiny)).addr = some shown ∧
    shown 0 = 7 ∧ shown 1 = 0 := by
  obtain ⟨_,shown,swapped,seen,_⟩ := drawing_clips tiny ⟨by decide,by decide⟩ _ _ rfl rfl (fun _ _ => 0) (fun _ _ _ _ => rfl)
    [.rect (-1) (-1) 2 2 7,.scroll 0 5] (by simp [Draw.Sound])
  refine ⟨shown,swapped,(seen 0 (by decide) 0 (by decide)).trans ?_,(seen 1 (by decide) 0 (by decide)).trans ?_⟩
  · rfl
  · rfl

end BlackOS.Fb
