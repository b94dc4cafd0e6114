/-
Numbers as strings (`lib/string.c`, `kernel/graphics.c`), in memory: `tostring`
writes the digits lowest first and turns them around in place, and
`string_addnum` and `kprintnum` both do so in the one `numbuffer`.

`num` is the address of the digits, a static of `tostring`; the framebuffer is
apart from the memory, as in `Ssmos.Drawing`.
-/
import Ssmos.String
import Ssmos.Drawing

namespace Ssmos

/-- `while (end > begin) x = *end, *end-- = *begin, *begin++ = x;` -/
def strrevLoop : Nat → Mem → Nat → Nat → Except Stop Mem
  | 0, _, _, _ => .error .spin
  | n + 1, m, first, last =>
    if last > first then
      let x := m.load8 last
      let m := m.store8 last (m.load8 first)
      strrevLoop n (m.store8 first x) (wrap (first + 1)) (wrap (last + (2 ^ 32 - 1)))
    else .ok m

def strrev (m : Mem) (first last : Nat) : Except Stop Mem :=
  if first = NULL ∨ last = NULL then .ok m else strrevLoop loopBound m first last

/-- `-val`, as an `int`. -/
def negate (val : Int) : Int := toInt (ofInt (-val))

/-- What the digit loop leaves, and the indices into `num` that it read. -/
structure Digits where
  mem : Mem
  buffer : Nat
  indices : List Int

/-- `do { *buffer++ = num[val%base]; } while (val /= base);` -/
def fillLoop (num : Nat) (base : Int) : Nat → Mem → Nat → Int → Except Stop Digits
  | 0, _, _, _ => .error .spin
  | n + 1, m, buffer, val =>
    let index := val.tmod base
    let m := m.store8 buffer (m.load8 (ofInt (num + index)))
    let buffer := wrap (buffer + 1)
    let val := val.tdiv base
    if val ≠ 0 then do
      let rest ← fillLoop num base n m buffer val
      .ok { rest with indices := index :: rest.indices }
    else .ok ⟨m, buffer, [index]⟩

/-- What `tostring` makes of `val` before it takes the digits. -/
def magnitude (val : Int) : Int := if val < 0 then negate val else val

def Mem.tostring (m : Mem) (num : Nat) (val : Int) (dest : Nat) (base : Int) : Except Stop Mem :=
  if dest = NULL then .ok m
  else if base < 2 ∨ base > 35 then .ok m
  else do
    let digits ← fillLoop num base loopBound m dest (magnitude val)
    let (m, buffer) :=
      if val < 0 then (digits.mem.store8 digits.buffer 0x2D, wrap (digits.buffer + 1))
      else (digits.mem, digits.buffer)
    let m := m.store8 buffer 0
    strrev m dest (wrap (buffer + (2 ^ 32 - 1)))

/-! ## The shared buffer -/

def MAX_INT_CHARS : Nat := 15

/-- `numbuffer` is a global: its value comes first and is given back. -/
def stringAddnum (num numbuffer : Nat) (m : Mem) (str : Nat) (val base : Int) : Except Stop (Nat × Mem) :=
  if str = NULL then .ok (numbuffer, m)
  else do
    let (numbuffer, m) ← (if numbuffer = NULL then malloc m MAX_INT_CHARS else .ok (numbuffer, m))
    let m ← m.tostring num val numbuffer base
    .ok (numbuffer, ← stringAdd m str numbuffer)

/-- The chars at `a` up to the terminator, `n` of them at the most. -/
def Mem.chars (m : Mem) : Nat → Nat → List UInt8
  | 0, _ => []
  | n + 1, a => if m.load8 a = 0 then [] else m.load8 a :: m.chars n (wrap (a + 1))

/-- `kprint` stops at the end of the framebuffer, before it has read as many
chars as that has bytes. -/
def kprintnum (num numbuffer : Nat) (m : Mem) (v : Video) (pos : Nat) (val : Int) (color : UInt8) (base : Int) :
    Except Stop (Mem × Video) := do
  let m ← m.tostring num val numbuffer base
  .ok (m, v.kprint pos (m.chars FRAMEBUFFER_SIZE numbuffer) color)

end Ssmos
