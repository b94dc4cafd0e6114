/-
The text-mode framebuffer (`kernel/graphics.c`, `lib/output.h`): bytes by their
offset into it, a character and a color for each position.
-/
import Ssmos.Text

namespace Ssmos

def COLUMNS : Nat := 80
def ROWS : Nat := 25
def FRAMEBUFFER_SIZE : Nat := COLUMNS * ROWS * 2

inductive Color
  | black | blue | green | cyan | red | magenta | brown | lightGrey | darkGrey | lightBlue | lightGreen
  | lightCyan | lightRed | lightMagenta | lightBrown | white | unknown
  deriving DecidableEq, Repr

def Color.code (c : Color) : UInt8 := UInt8.ofNat c.ctorIdx

def clamp (x min max : Int) : Int := if x > max then max else if x < min then min else x

/-- The offset of a column and a row. The column may run on into later rows. -/
def getPosition (x y : Int) : Nat :=
  let y := clamp y 0 (ROWS - 1)
  let x := clamp x 0 (COLUMNS * (ROWS - y) - 1)
  (x * 2 + y * 160).toNat

def getColor (fg bg : Color) : UInt8 := fg.code ||| bg.code <<< 4

abbrev Framebuffer := Nat → UInt8

namespace Framebuffer

def set (fb : Framebuffer) (a : Nat) (v : UInt8) : Framebuffer := fun x => if x = a then v else fb x

/-- `kmemset`, in the framebuffer. -/
def fill (fb : Framebuffer) (dest : Nat) (c : UInt8) : Nat → Framebuffer
  | 0 => fb
  | i + 1 => (fill fb dest c i).set (dest + i) c

/-- `kmemcpy`, in the framebuffer. -/
def copy (fb : Framebuffer) (dest src : Nat) : Nat → Framebuffer
  | 0 => fb
  | i + 1 =>
    let fb := copy fb dest src i
    fb.set (dest + i) (fb (src + i))

end Framebuffer

def kclear (fb : Framebuffer) : Framebuffer := fb.fill 0 0 FRAMEBUFFER_SIZE

def kccolorLoop : Nat → Framebuffer → Nat → UInt8 → Framebuffer
  | 0, fb, _, _ => fb
  | n + 1, fb, vidptr, color =>
    let fb := fb.set vidptr color
    let vidptr := vidptr + 2
    if vidptr > FRAMEBUFFER_SIZE then fb else kccolorLoop n fb vidptr color

def kccolor (fb : Framebuffer) (pos n : Nat) (color : UInt8) : Framebuffer :=
  kccolorLoop n fb (pos + 1) color

/-- The loop of `kscroll`, over the first rows. -/
def kscrollLoop (fb : Framebuffer) : Nat → Framebuffer
  | 0 => fb
  | i + 1 => (kscrollLoop fb i).copy (getPosition 0 i) (getPosition 0 (i + 1)) (COLUMNS * 2)

def kscroll (fb : Framebuffer) : Framebuffer :=
  (kscrollLoop fb (ROWS - 1)).fill (getPosition 0 (ROWS - 1)) 0 (COLUMNS * 2)

def kputchar (fb : Framebuffer) (pos : Nat) (c color : UInt8) : Framebuffer :=
  (fb.set pos c).set (pos + 1) color

end Ssmos
