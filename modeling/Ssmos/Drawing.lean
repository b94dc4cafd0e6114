/-
The drawing functions of `kernel/graphics.c` store by store: `vidptr`, as an
offset into the framebuffer, and the offsets written. Each checks the bound
only after it has written, so what keeps it inside is where `vidptr` can be:
on a character when a text is drawn, on a color when colors are.
-/
import Ssmos.Graphics

namespace Ssmos

/-- The `int` that `get_position` returns. -/
def positionVal (x y : Int) : Int :=
  clamp x 0 (COLUMNS * (ROWS - clamp y 0 (ROWS - 1)) - 1) * 2 + clamp y 0 (ROWS - 1) * 160

structure Video where
  framebuffer : Framebuffer
  vidptr : Nat
  /-- The offsets stored to, the last one first. -/
  written : List Nat

namespace Video

variable {v : Video} {pos : Nat} {c color : UInt8}

def setVidptr (v : Video) (pos : Nat) : Video := { v with vidptr := pos }

/-- `*vidptr = c`. -/
def store (v : Video) (c : UInt8) : Video :=
  { v with framebuffer := v.framebuffer.set v.vidptr c, written := v.vidptr :: v.written }

/-- `vidptr += n`. -/
def advance (v : Video) (n : Nat) : Video := { v with vidptr := v.vidptr + n }

def handleNewline (v : Video) : Video := v.advance (COLUMNS * 2 - v.vidptr % (COLUMNS * 2))

def kputchar (v : Video) (pos : Nat) (c color : UInt8) : Video :=
  (((v.setVidptr pos).store c).advance 1).store color

def kccolorLoop (color : UInt8) : Nat → Video → Video
  | 0, v => v
  | n + 1, v =>
    let v := ((v.store color).advance 1).advance 1
    if v.vidptr > FRAMEBUFFER_SIZE then v else kccolorLoop color n v

def kccolor (v : Video) (pos : Nat) (n : Int) (color : UInt8) : Video :=
  kccolorLoop color n.toNat ((v.setVidptr pos).advance 1)

/-- A char of a text: a cell, or on to the next row. -/
def putText (v : Video) (c color : UInt8) : Video :=
  if c ≠ 0x0A then (((v.store c).advance 1).store color).advance 1 else v.handleNewline

/-- The loop of `kputstring` over the chars up to the terminator, which it
writes too when the count lets it. -/
def kputstringLoop (color : UInt8) : Nat → List UInt8 → Video → Video
  | 0, _, v => v
  | _ + 1, [], v => v.putText 0 color
  | n + 1, c :: text, v =>
    let v := v.putText c color
    if c = 0 then v
    else if v.vidptr ≥ FRAMEBUFFER_SIZE then v
    else kputstringLoop color n text v

def kputstring (v : Video) (pos : Nat) (text : List UInt8) (c : Int) (color : UInt8) : Video :=
  kputstringLoop color c.toNat text (v.setVidptr pos)

/-- The loop of `kprint` over the chars up to the terminator. -/
def kprintLoop (color : UInt8) : List UInt8 → Video → Video
  | [], v => v
  | c :: text, v =>
    if c = 0 then v
    else
      let v := v.putText c color
      if v.vidptr ≥ FRAMEBUFFER_SIZE then v else kprintLoop color text v

def kprint (v : Video) (pos : Nat) (text : List UInt8) (color : UInt8) : Video :=
  kprintLoop color text (v.setVidptr pos)

/-! ## The framebuffer -/

theorem kputchar_framebuffer :
    (v.kputchar pos c color).framebuffer = Ssmos.kputchar v.framebuffer pos c color := rfl

theorem kccolorLoop_framebuffer {n : Nat} :
    (kccolorLoop color n v).framebuffer = Ssmos.kccolorLoop n v.framebuffer v.vidptr color := by
  induction n generalizing v with
  | zero => rfl
  | succ n ih =>
    have hptr : (((v.store color).advance 1).advance 1).vidptr = v.vidptr + 2 := rfl
    simp only [kccolorLoop, Ssmos.kccolorLoop, hptr]
    split
    · rfl
    · exact ih

theorem kccolor_framebuffer {n : Int} :
    (v.kccolor pos n color).framebuffer = Ssmos.kccolor v.framebuffer pos n.toNat color :=
  kccolorLoop_framebuffer

/-! ## Inside -/

/-- All that was written lies in the framebuffer. -/
def Inside (v : Video) : Prop := ∀ a ∈ v.written, a < FRAMEBUFFER_SIZE

theorem Inside.store (h : v.Inside) (hlt : v.vidptr < FRAMEBUFFER_SIZE) : (v.store c).Inside := by
  intro a ha
  rcases List.mem_cons.mp ha with rfl | ha
  · exact hlt
  · exact h a ha

theorem Inside.advance {n : Nat} (h : v.Inside) : (v.advance n).Inside := h

theorem even_size : FRAMEBUFFER_SIZE % 2 = 0 := rfl

theorem handleNewline_even (h : v.vidptr % 2 = 0) : v.handleNewline.vidptr % 2 = 0 := by
  simp only [handleNewline, Video.advance, COLUMNS]
  omega

/-- `vidptr` is on a character of the framebuffer. -/
structure OnChar (v : Video) : Prop where
  inside : v.Inside
  even : v.vidptr % 2 = 0
  lt : v.vidptr < FRAMEBUFFER_SIZE

/-- A char leaves `vidptr` even, if not in the framebuffer. -/
theorem OnChar.putText (h : v.OnChar) (c color : UInt8) :
    (v.putText c color).Inside ∧ (v.putText c color).vidptr % 2 = 0 := by
  have heven := h.even
  have hsize := even_size
  have hlt := h.lt
  unfold Video.putText
  split
  · have hcolor : (v.vidptr + 1) < FRAMEBUFFER_SIZE := by omega
    refine ⟨((h.inside.store hlt).advance.store hcolor).advance, ?_⟩
    simp only [Video.advance, Video.store]
    omega
  · exact ⟨h.inside, handleNewline_even heven⟩

theorem kputstringLoop_inside {n : Nat} {text : List UInt8} (h : v.OnChar) :
    (kputstringLoop color n text v).Inside := by
  induction n generalizing text v with
  | zero => exact h.inside
  | succ n ih =>
    cases text with
    | nil => exact (h.putText 0 color).1
    | cons c text =>
      obtain ⟨hin, heven⟩ := h.putText c color
      simp only [kputstringLoop]
      split
      · exact hin
      · split
        · exact hin
        · next hlt => exact ih ⟨hin, heven, Nat.lt_of_not_le hlt⟩

theorem kprintLoop_inside {text : List UInt8} (h : v.OnChar) : (kprintLoop color text v).Inside := by
  induction text generalizing v with
  | nil => exact h.inside
  | cons c text ih =>
    obtain ⟨hin, heven⟩ := h.putText c color
    simp only [kprintLoop]
    split
    · exact h.inside
    · split
      · exact hin
      · next hlt => exact ih ⟨hin, heven, Nat.lt_of_not_le hlt⟩

/-- On a color the check is `>`: an odd offset that is not past the end is in. -/
theorem kccolorLoop_inside {n : Nat} (h : v.Inside) (hodd : v.vidptr % 2 = 1)
    (hle : v.vidptr ≤ FRAMEBUFFER_SIZE) : (kccolorLoop color n v).Inside := by
  induction n generalizing v with
  | zero => exact h
  | succ n ih =>
    have hsize := even_size
    have hin : (((v.store color).advance 1).advance 1).Inside := (h.store (by omega)).advance.advance
    simp only [kccolorLoop]
    split
    · exact hin
    · next hlt =>
      refine ih hin ?_ (Nat.le_of_not_lt hlt)
      simp only [Video.advance, Video.store]
      omega

end Video

/-! ## From `get_position` on -/

theorem clamp_bounds {x min max : Int} (h : min ≤ max) : min ≤ clamp x min max ∧ clamp x min max ≤ max := by
  unfold clamp
  omega

/-- A position is even and leaves room for a cell. -/
theorem positionVal_bounds (x y : Int) :
    0 ≤ positionVal x y ∧ positionVal x y ≤ 3998 ∧ positionVal x y % 2 = 0 := by
  unfold positionVal
  have hy := clamp_bounds (x := y) (show (0 : Int) ≤ ROWS - 1 by decide)
  generalize clamp y 0 (ROWS - 1) = row at hy ⊢
  have hrows : ((ROWS : Nat) : Int) = 25 := rfl
  have hcols : ((COLUMNS : Nat) : Int) = 80 := rfl
  rw [hrows] at hy
  rw [hrows, hcols]
  have hx := clamp_bounds (x := x) (show (0 : Int) ≤ 80 * (25 - row) - 1 by omega)
  generalize clamp x 0 (80 * (25 - row) - 1) = col at hx ⊢
  omega

theorem getPosition_eq (x y : Int) : (getPosition x y : Int) = positionVal x y :=
  Int.toNat_of_nonneg (positionVal_bounds x y).1

theorem getPosition_bounds (x y : Int) : getPosition x y < FRAMEBUFFER_SIZE - 1 ∧ getPosition x y % 2 = 0 := by
  have h := positionVal_bounds x y
  rw [← getPosition_eq] at h
  have hsize : FRAMEBUFFER_SIZE = 4000 := rfl
  omega

/-- **Drawing stays inside the framebuffer**: from every position there is,
whatever the chars, colors, counts and texts. -/
theorem drawing_inside (x y : Int) :
    (0 ≤ positionVal x y ∧ positionVal x y ≤ 3998 ∧ positionVal x y % 2 = 0 ∧
        getPosition x y = positionVal x y) ∧
      ∀ (fb : Framebuffer) (vidptr : Nat) (c color : UInt8) (n : Int) (text : List UInt8),
        (Video.kputchar ⟨fb, vidptr, []⟩ (getPosition x y) c color).Inside ∧
        (Video.kccolor ⟨fb, vidptr, []⟩ (getPosition x y) n color).Inside ∧
        (Video.kputstring ⟨fb, vidptr, []⟩ (getPosition x y) text n color).Inside ∧
        (Video.kprint ⟨fb, vidptr, []⟩ (getPosition x y) text color).Inside := by
  obtain ⟨h₀, h₁, h₂⟩ := positionVal_bounds x y
  obtain ⟨hlt, heven⟩ := getPosition_bounds x y
  refine ⟨⟨h₀, h₁, h₂, getPosition_eq x y⟩, fun fb vidptr c color n text => ?_⟩
  have hin : ∀ p, Video.Inside ⟨fb, p, []⟩ := fun p => nofun
  have hon : Video.OnChar ⟨fb, getPosition x y, []⟩ := ⟨hin _, heven, Nat.lt_of_lt_of_le hlt (Nat.sub_le _ _)⟩
  refine ⟨?_, ?_, Video.kputstringLoop_inside hon, Video.kprintLoop_inside hon⟩
  · exact ((hin _).store hon.lt).advance.store (show getPosition x y + 1 < _ by omega)
  · exact Video.kccolorLoop_inside (hin _) (show (getPosition x y + 1) % 2 = 1 by omega)
      (show getPosition x y + 1 ≤ _ by omega)

end Ssmos
