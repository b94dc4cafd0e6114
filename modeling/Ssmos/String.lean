/-
C strings and dynamic strings (`lib/string.c`), in memory: a C string is a run
of bytes up to a zero, a dynamic string a `struct string` of two words, the
address of its buffer and the buffer's size.
-/
import Ssmos.Memory
import Ssmos.Base.Preserves

namespace Ssmos

/-! ## C strings -/

/-- `while (*str != 0x0) { len++; str++; }` -/
def strlenLoop : Nat → Mem → Nat → Nat → Except Stop Nat
  | 0, _, _, _ => .error .spin
  | n + 1, m, str, len =>
    if m.load8 str ≠ 0 then strlenLoop n m (wrap (str + 1)) (wrap (len + 1)) else .ok len

def strlen (m : Mem) (str : Nat) : Except Stop Nat :=
  if str = NULL then .ok 0 else strlenLoop loopBound m str 0

/-- Copy from `y` to `x` until the terminator, and terminate. -/
def strcpyLoop : Nat → Mem → Nat → Nat → Except Stop Mem
  | 0, _, _, _ => .error .spin
  | n + 1, m, x, y =>
    if m.load8 y ≠ 0 then strcpyLoop n (m.store8 x (m.load8 y)) (wrap (x + 1)) (wrap (y + 1))
    else .ok (m.store8 x 0)

def strcpy (m : Mem) (dest src : Nat) : Except Stop Mem :=
  if dest = NULL ∨ src = NULL then .ok m else strcpyLoop loopBound m dest src

/-- `while (*x != 0x0) x++;` -/
def endOf : Nat → Mem → Nat → Except Stop Nat
  | 0, _, _ => .error .spin
  | n + 1, m, x => if m.load8 x ≠ 0 then endOf n m (wrap (x + 1)) else .ok x

def strcat (m : Mem) (dest src : Nat) : Except Stop (Nat × Mem) :=
  if dest = NULL ∨ src = NULL then .ok (NULL, m)
  else do
    let x ← endOf loopBound m dest
    .ok (dest, ← strcpyLoop loopBound m x src)

/-- The loop of `strncat`: up to `n` chars, from `y` to `x`. -/
def strncatLoop : Nat → Mem → Nat → Nat → Mem
  | 0, m, _, _ => m
  | n + 1, m, x, y =>
    if m.load8 y = 0 then m
    else strncatLoop n (m.store8 x (m.load8 y)) (wrap (x + 1)) (wrap (y + 1))

def strncat (m : Mem) (dest src n : Nat) : Except Stop (Nat × Mem) :=
  if dest = NULL ∨ src = NULL ∨ n < 1 then .ok (dest, m)
  else do
    let x ← endOf loopBound m dest
    .ok (dest, strncatLoop n m x src)

/-! ## Dynamic strings -/

/-- `sizeof(string)`. -/
def STRING_SIZE : Nat := 8

namespace Mem

/-! The fields of the `struct string` at `str`. -/

def data (m : Mem) (str : Nat) : Nat := m.load32 str
def size (m : Mem) (str : Nat) : Nat := m.load32 (str + 4)

def setData (m : Mem) (str v : Nat) : Mem := m.store32 str v
def setSize (m : Mem) (str v : Nat) : Mem := m.store32 (str + 4) v

end Mem

/-- What an `int` is as an `unsigned`. -/
def ofInt (z : Int) : Nat := (z % 2 ^ 32).toNat

def stringNewsz (m : Mem) (init : Nat) : Except Stop (Nat × Mem) := do
  let (str, m) ← malloc m STRING_SIZE
  if str = NULL then return (NULL, m)
  let m := m.setSize str (init + 1)
  let (data, m) ← malloc m (m.size str)
  let m := m.setData str data
  .ok (str, m.store8 (m.data str) 0)

def stringNew (m : Mem) : Except Stop (Nat × Mem) := stringNewsz m 0

/-- `string_new` takes no length: the one it is given here is lost. -/
def stringFromchar (m : Mem) (data : Nat) : Except Stop (Nat × Mem) :=
  if data = NULL then .ok (NULL, m)
  else do
    let _ ← strlen m data
    let (newstr, m) ← stringNew m
    .ok (newstr, ← strcpy m (m.data newstr) data)

def stringFree (m : Mem) (str : Nat) : Mem :=
  if str = NULL then m else free (free m (m.data str)) str

def stringResize (m : Mem) (str newsz : Nat) : Except Stop Mem :=
  if str = NULL then .ok m
  else do
    let oldsz := m.size str
    let newsz := wrap (newsz + 1)
    let (data, m) ← realloc m (m.data str) newsz
    let m := m.setData str data
    let m := m.setSize str newsz
    .ok (if newsz < oldsz then m.store8 (m.data str + (newsz + (2 ^ 32 - 1))) 0 else m)

def stringPadding (m : Mem) (str : Nat) : Except Stop Int :=
  if str = NULL then .ok (-1)
  else do
    let len ← strlen m (m.data str)
    .ok (toInt (m.size str + (2 ^ 32 - wrap (len + 1))))

def stringUsed (m : Mem) (str : Nat) : Except Stop Int :=
  if str = NULL then .ok (-1)
  else do
    .ok (toInt (ofInt (m.size str - (← stringPadding m str))))

def stringTrim (m : Mem) (str : Nat) : Except Stop Mem :=
  if str = NULL then .ok m
  else do
    stringResize m str (ofInt (m.size str - (← stringPadding m str)))

def stringAdd (m : Mem) (str data : Nat) : Except Stop Mem :=
  if str = NULL ∨ data = NULL then .ok m
  else do
    let len := wrap ((← strlen m (m.data str)) + (← strlen m data))
    let m ← (if m.size str < wrap (len + 1) then stringResize m str len else .ok m)
    let (_, m) ← strcat m (m.data str) data
    .ok m

/-- `while (str->data[x] != 0x0) x++;` -/
def zeroIndex : Nat → Mem → Nat → Nat → Except Stop Nat
  | 0, _, _, _ => .error .spin
  | n + 1, m, str, x => if m.load8 (m.data str + x) ≠ 0 then zeroIndex n m str (wrap (x + 1)) else .ok x

def stringAddchar (m : Mem) (str : Nat) (c : UInt8) : Except Stop Mem :=
  if str = NULL then .ok m
  else do
    let len ← strlen m (m.data str)
    let m ← (if m.size str ≤ wrap (len + 2) then stringResize m str (wrap (m.size str + 1)) else .ok m)
    let x ← zeroIndex loopBound m str 0
    let m := m.store8 (m.data str + x) c
    .ok (m.store8 (m.data str + (x + 1)) 0)

def stringSet (m : Mem) (str data : Nat) : Except Stop Mem :=
  if str = NULL ∨ data = NULL then .ok m
  else do
    let len ← strlen m data
    let m ← (if wrap (len + 1) > m.size str then stringResize m str len else .ok m)
    strcpy m (m.data str) data

/-- The loop of `string_clear`. -/
def clearLoop : Nat → Mem → Nat → Nat → Except Stop Mem
  | 0, _, _, _ => .error .spin
  | n + 1, m, str, i =>
    if i < m.size str then clearLoop n (m.store8 (m.data str + i) 0) str (wrap (i + 1)) else .ok m

def stringClear (m : Mem) (str : Nat) : Except Stop Mem :=
  if str = NULL then .ok m else clearLoop loopBound m str 0

end Ssmos
