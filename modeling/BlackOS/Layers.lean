import BlackOS.Framebuffer

/-! Drawing calls as layers, of which the last one that has a point gives it its colour. -/
namespace BlackOS.Fb
open BlackOS.Library.Canvas
open BlackOS.Library.Ram (Byte Word)

/-- The colour of a string at a point, where the string is. -/
def stringLayer (x y : Int) (s : List Byte) (fg bg : Word) (a b : Int) : Option Word :=
  area x y (8 * s.length) 8 (fun i j => glyphColor (s.getD (i / 8) 0) fg bg (i % 8) j) a b

/-- A scroll is no layer: it moves what is there. -/
def Draw.layer : Draw → Int → Int → Option Word
  | .pixel x y c => area x y 1 1 fun _ _ => c
  | .rect x y w h c => area x y w h fun _ _ => c
  | .char x y ch fg bg => area x y 8 8 (glyphColor ch fg bg)
  | .string x y s fg bg => stringLayer x y s fg bg
  | .blit dx dy w h src => area dx dy w h fun i j => src (j * w.toNat + i)
  | .clear c => fun _ _ => some c
  | .scroll _ _ => fun _ _ => none

theorem rect_covers (x y w h : Int) (c : Word) (a b : Int) :
    ((Draw.rect x y w h c).layer a b).isSome = true ↔ x ≤ a ∧ a < x + w ∧ y ≤ b ∧ b < y + h :=
  area_isSome x y w h (fun _ _ => c) a b

def Draw.Lays : Draw → Prop
  | .scroll _ _ => False
  | _ => True

@[simp] theorem pixel_lays (x y : Int) (c : Word) : (Draw.pixel x y c).Lays := True.intro

@[simp] theorem rect_lays (x y w h : Int) (c : Word) : (Draw.rect x y w h c).Lays := True.intro

@[simp] theorem char_lays (x y : Int) (ch : Byte) (fg bg : Word) : (Draw.char x y ch fg bg).Lays := True.intro

@[simp] theorem string_lays (x y : Int) (s : List Byte) (fg bg : Word) : (Draw.string x y s fg bg).Lays := True.intro

@[simp] theorem clear_lays (c : Word) : (Draw.clear c).Lays := True.intro

theorem Draw.Lays.sound {d : Draw} (lays : d.Lays) (height : Int) : d.Sound height := by
  cases d with
  | scroll lines bg => cases lays
  | _ => exact True.intro

theorem paintString_layer (s : List Byte) (p : Plane Word) (x y : Int) (fg bg : Word) (a b : Int) :
    paintString p x y s fg bg a b = (stringLayer x y s fg bg a b).getD (p a b) := by
  induction s generalizing p x with
  | nil =>
    have nowhere : ¬(x ≤ a ∧ a < x + 8 * (([] : List Byte).length : Nat) ∧ y ≤ b ∧ b < y + 8) := by
      simp only [List.length_nil]
      omega
    rw [stringLayer,area,if_neg nowhere]
    rfl
  | cons ch s ih =>
    rw [paintString,ih]
    have size : (ch::s).length = s.length + 1 := rfl
    unfold stringLayer area
    rw [size]
    by_cases later : x + 8 ≤ a ∧ a < x + 8 + 8 * s.length ∧ y ≤ b ∧ b < y + 8
    · have column : (a - x).toNat = (a - (x + 8)).toNat + 8 := by omega
      have index : ((a - (x + 8)).toNat + 8) / 8 = (a - (x + 8)).toNat / 8 + 1 := by omega
      have place : ((a - (x + 8)).toNat + 8) % 8 = (a - (x + 8)).toNat % 8 := by omega
      rw [if_pos later,if_pos (by omega),column]
      dsimp only
      rw [index,place]
      rfl
    · rw [if_neg later]
      by_cases here : x ≤ a ∧ a < x + 8 ∧ y ≤ b ∧ b < y + 8
      · have index : (a - x).toNat / 8 = 0 := by omega
        have place : (a - x).toNat % 8 = (a - x).toNat := by omega
        rw [if_pos (by omega)]
        dsimp only
        rw [index,place]
        exact if_pos (by omega)
      · rw [if_neg (by omega)]
        exact paint_outside _ _ _ _ _ _ _ _ (by omega)

theorem painted_layer (height : Int) (d : Draw) (lays : d.Lays) (p : Plane Word) (a b : Int) :
    painted height p d a b = (d.layer a b).getD (p a b) := by
  cases d with
  | pixel x y c => exact set_area p x y c a b
  | rect x y w h c => exact paint_area p x y w h (fun _ _ => c) a b
  | char x y ch fg bg => exact paint_area p x y 8 8 (glyphColor ch fg bg) a b
  | string x y s fg bg => exact paintString_layer s p x y fg bg a b
  | blit dx dy w h src => exact paint_area p dx dy w h (fun i j => src (j * w.toNat + i)) a b
  | clear c => rfl
  | scroll lines bg => cases lays

def layers (l : List Draw) (a b : Int) : Option Word := l.reverse.findSome? fun d => d.layer a b

theorem layers_append (l m : List Draw) (a b : Int) : layers (l ++ m) a b = (layers m a b).or (layers l a b) := by
  rw [layers,List.reverse_append,List.findSome?_append]
  rfl

theorem layers_isSome (l : List Draw) (a b : Int) : (layers l a b).isSome = true ↔ ∃ d ∈ l, (d.layer a b).isSome = true := by
  simp [layers]

theorem painted_layers (height : Int) (l : List Draw) (lay : ∀ d ∈ l, d.Lays) (p : Plane Word) (a b : Int) :
    l.foldl (painted height) p a b = (layers l a b).getD (p a b) :=
  foldl_layers l (painted height) Draw.layer p a b fun d listed p => painted_layer height d (lay d listed) p a b

/-- Where the calls cover a point, it does not matter what was there before. -/
theorem layers_hide (l m : List Draw) (a b : Int) (covers : ∃ d ∈ m, (d.layer a b).isSome = true) :
    layers (l ++ m) a b = layers m a b := by
  obtain ⟨c,same⟩ := Option.isSome_iff_exists.mp ((layers_isSome m a b).mpr covers)
  rw [layers_append,same]
  rfl

end BlackOS.Fb
