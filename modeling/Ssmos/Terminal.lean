/-
The state of the terminal (`kernel/terminal.c`), the dynamic strings its
commands work on, and what prints: `new_prompt` and `writeline`.

Strings and `struct alias`es are objects with a pointer each; what a pointer
points at is a total function, since with paging off a read never faults, at
`NULL` neither. The dynamic strings are their texts (`Ssmos.StringFacts`), so
a capacity is not part of an object and `string_newsz` is `string_new`. A list
is the values of its nodes (`Ssmos.ListFacts`). An `int` of the terminal is
an `Int`: a line has at most `TERMINAL_INPUT_SIZE` characters. The heap's blocks
are only counted; that there is room for them is up to `Env.heapFull`.
-/
import Ssmos.Base.Preserves
import Ssmos.Memory
import Ssmos.Graphics

namespace Ssmos

abbrev Ptr := Nat

/-- `struct alias`; its field `alias` is `name` here. -/
structure Alias where
  name : Ptr
  command : Ptr
  deriving DecidableEq, Repr

/-- What happens to objects: an allocation, a free, and each time a list node's
value is used as a `struct alias`. -/
inductive Event
  | alloc (p : Ptr)
  | free (p : Ptr)
  | deref (p : Ptr)
  deriving DecidableEq, Repr

/-- The kernel's lists. -/
inductive KernelList
  | cmdhistory | aliases | systemlog
  deriving DecidableEq, Repr

/-- The blocks of the heap that are no object of their own: the buffer of a
string, the `i`-th node of a list, and what `string_addnum` keeps at `numbuffer`. -/
inductive Block
  | data (str : Ptr)
  | node (list : KernelList) (i : Nat)
  | numbuffer
  deriving DecidableEq, Repr

structure Terminal where
  /-- The text of the string at a pointer. -/
  str : Ptr → Text
  /-- The `struct alias` at a pointer. -/
  struct : Ptr → Alias
  /-- The next pointer the heap gives out. -/
  next : Ptr
  /-- Events, latest first. -/
  log : List Event
  /-- The blocks that were allocated, a buffer also when `realloc` moved it. -/
  blocks : Block → Bool
  framebuffer : Framebuffer
  promptY : Int
  promptString : Ptr
  promptStringLength : Nat
  cursorX : Int
  cursorY : Int
  terminalColor : UInt8
  cursorColor : UInt8
  endterm : Bool
  input : Ptr
  inputPtr : Int
  cmdhistory : List Ptr
  aliases : List Ptr
  systemlog : List Text
  /-- The interrupt flag. -/
  interrupts : Bool

def PROMPT_STRING : Text := Text.lit "#>"
def PROMPT_START_X : Int := 0
def PROMPT_START_Y : Int := 14
def TERMINAL_INPUT_SIZE : Nat := 256
def TERMINAL_FG : Color := .lightGreen
def TERMINAL_BG : Color := .black
def CURSOR_FG : Color := .lightGreen
def CURSOR_BG : Color := .darkGrey

/-! ## Signals -/

def SIG_SUCCESS : Int := 0
def SIG_FAIL : Int := -1
def ERR_HARDWARE : Int := 12

/-! ## Strings -/

namespace Terminal

def setStr (s : Terminal) (p : Ptr) (t : Text) : Terminal :=
  { s with str := fun q => if q = p then t else s.str q }

def setStruct (s : Terminal) (p : Ptr) (a : Alias) : Terminal :=
  { s with struct := fun q => if q = p then a else s.struct q }

def event (s : Terminal) (e : Event) : Terminal := { s with log := e :: s.log }

/-- The block is allocated. -/
def mark (s : Terminal) (b : Block) : Terminal := { s with blocks := fun b' => b' = b || s.blocks b' }

/-- A value more for a list with these: `list_add` allocates a node for it, but
the first value is put in the node there is. -/
def grow (s : Terminal) (list : KernelList) (vs : List Ptr) : Terminal :=
  { s with blocks := fun b => (b = .node list vs.length && vs.headD NULL ≠ NULL) || s.blocks b }

/-- A fresh object. -/
def alloc (s : Terminal) : Terminal := { s.event (.alloc s.next) with next := s.next + 1 }

/-- `string_free`. -/
def release (s : Terminal) (p : Ptr) : Terminal := if p = NULL then s else s.event (.free p)

/-- A function of `lib/string.c` that changes the text of the string at `p`. It
counts as one that moves the buffer, which `string_resize` then frees. -/
def update (s : Terminal) (p : Ptr) (f : Text → Text) : Terminal :=
  if p = NULL then s else (s.setStr p (f (s.str p))).mark (.data p)

end Terminal

/-- The terminal's code: it may stop in `haltdump` or a loop that never ends. -/
abbrev Term := StateT Terminal (Except Stop)

namespace Term

def text (p : Ptr) : Term Text := do
  return (← get).str p

def stringNew : Term Ptr := do
  let s ← get
  set ((s.alloc.setStr s.next Text.empty).mark (.data s.next))
  return s.next

def stringFree (p : Ptr) : Term Unit := modify (·.release p)
def stringUpdate (p : Ptr) (f : Text → Text) : Term Unit := modify (·.update p f)
def stringAdd (p : Ptr) (data : Text) : Term Unit := stringUpdate p (·.append data)
def stringAddchar (p : Ptr) (c : UInt8) : Term Unit := stringUpdate p (·.push c)
def stringSet (p : Ptr) (data : Text) : Term Unit := stringUpdate p fun _ => data
def stringClear (p : Ptr) : Term Unit := stringUpdate p fun _ => Text.empty

/-- `while (c[i] != ' ' && c[i] != 0x0) string_addchar(p, c[i++])`: a word is
copied, the rest is what is left, from the space on. -/
def copyWord (p : Ptr) : List UInt8 → Term (List UInt8)
  | [] => pure []
  | c :: cs =>
    if c = 0x20 then pure (c :: cs)
    else do
      stringAddchar p c
      copyWord p cs

/-- `while (c[i] != 0x0) string_addchar(p, c[i++])` -/
def copyRest (p : Ptr) : List UInt8 → Term Unit
  | [] => pure ()
  | c :: cs => do
    stringAddchar p c
    copyRest p cs

end Term

/-! ## Printing -/

/-- `while (prompt_y > ROWS - 1)`, which ends after the rows there are too many. -/
def scrollLoop : Nat → Terminal → Terminal
  | 0, s => s
  | n + 1, s =>
    if s.promptY > ROWS - 1 then
      let fb := kccolor (kscroll s.framebuffer) (getPosition 0 0) (COLUMNS * ROWS) s.terminalColor
      scrollLoop n { s with framebuffer := fb, promptY := s.promptY - 1 }
    else s

def newPrompt (s : Terminal) : Terminal :=
  let s := { s with promptY := s.promptY + 1 }
  let s := scrollLoop (s.promptY - (ROWS - 1) : Int).toNat s
  let s := { s with cursorY := s.promptY, cursorX := s.promptStringLength }
  { s.setStr s.input Text.empty with inputPtr := 0 }

namespace Term

def writelineLoop : Nat → List UInt8 → Term Unit
  | _, [] => pure ()
  | i, c :: cs => do
    modify fun s => { s with
      framebuffer := kputchar s.framebuffer (getPosition (i % COLUMNS) s.promptY) c s.terminalColor }
    (if i > 0 ∧ i % (COLUMNS - 1) = 0 then modify newPrompt else pure ())
    writelineLoop (i + 1) cs

def writeline (msg : Text) : Term Unit := do
  modify newPrompt
  writelineLoop 0 msg.chars

end Term

end Ssmos
