/-
The command line (`kernel/terminal.c`): its setup, the line editor and the
dispatch of a submitted line. The table of commands is a parameter; the kernel
runs with `commands`.
-/
import Ssmos.Commands
import Ssmos.Base.Runs

namespace Ssmos

/-! ## Setup -/

/-- `klog`, once the log is there. -/
def Terminal.klog (s : Terminal) (msg : Text) : Terminal :=
  { s.mark (.node .systemlog s.systemlog.length) with systemlog := s.systemlog ++ [msg] }

/-- `init_terminal`. -/
def initTerminal (s : Terminal) : Terminal :=
  let s := s.klog (Text.lit "Setting up terminal...")
  let s := { s.mark (.node .cmdhistory 0) with cmdhistory := [NULL] }
  let s := { s.mark (.node .aliases 0) with aliases := [NULL] }
  let s := { (s.alloc.setStr s.next Text.empty).mark (.data s.next) with
    input := s.next
    inputPtr := 0
    terminalColor := getColor TERMINAL_FG TERMINAL_BG }
  let s := { (s.alloc.setStr s.next PROMPT_STRING).mark (.data s.next) with promptString := s.next }
  let s := { s with
    promptStringLength := (s.str s.promptString).length
    promptY := PROMPT_START_Y }
  let s := { s with
    cursorX := s.promptStringLength
    cursorY := s.promptY
    cursorColor := getColor CURSOR_FG CURSOR_BG }
  s.klog (Text.lit "Terminal initialization complete, ready to run.")

/-! ## A submitted line -/

namespace Term

def printReturn (env : Env) (retstat : Int) (name : Text) : Term Unit :=
  if retstat ≠ SIG_SUCCESS ∧ retstat ≠ SIG_FAIL then do
    let retmsg ← stringNew
    stringSet retmsg name
    stringAdd retmsg (Text.lit " returned error code: ")
    stringAddnum env retmsg retstat 10
    writeline (Text.lit "")
    writeline (← text retmsg)
    stringFree retmsg
  else pure ()

/-- Split `line` at its first space, into the command string and the parameters. -/
def separate (cmdString params : Ptr) (line : Text) : Term Unit := do
  let rest ← copyWord cmdString line.chars
  match rest with
  | [] => pure ()
  | _ :: rest => copyRest params rest

/-- The command a line names, through an alias if there is no such command. -/
def resolve (table : List Command) (cmdString params : Ptr) : Term (Option Command) := do
  let cmd ← text cmdString
  match findCmd table cmd with
  | some c => pure (some c)
  | none => do
    match ← findAlias cmd with
    | none => pure none
    | some aliasptr => do
      let a ← derefAlias aliasptr
      let aliascmd ← text a.command
      stringClear cmdString
      stringClear params
      separate cmdString params aliascmd
      return findCmd table (← text cmdString)

def execute (table : List Command) (env : Env) (cmdString params : Ptr) :
    Option Command → Term Unit
  | some cmdptr => do
    let returnStatus ← cmdptr.call.run table env (← text params)
    printReturn env returnStatus cmdptr.name
  | none => do
    writeline (Text.lit "Cannot find file or command:")
    writeline (← text cmdString)

def parseInput (table : List Command) (env : Env) : Term Unit := do
  let s ← get
  if s.inputPtr ≤ 0 then modify newPrompt
  else do
    let cmdString ← stringNew
    let params ← stringNew
    let historystr ← stringNew
    let line ← text s.input
    stringAdd historystr line
    modify (·.addHistory historystr)
    separate cmdString params line
    let cmdptr ← resolve table cmdString params
    execute table env cmdString params cmdptr
    stringFree cmdString
    stringFree params
    modify newPrompt

end Term

/-! ## The line editor -/

/-- What an `int` is as an `unsigned int`. -/
def toUnsigned (z : Int) : Int := if z < 0 then z + 2 ^ 32 else z

/-- Backspace. The cursor is compared as an `unsigned int`. -/
def backspace (s : Terminal) : Terminal :=
  let s := { s with cursorX := s.cursorX - 1 }
  let s :=
    if toUnsigned s.cursorX < s.promptStringLength then { s with cursorX := s.promptStringLength } else s
  if s.inputPtr > 0 then
    let s := { s with inputPtr := s.inputPtr - 1 }
    let s := s.setStr s.input ((s.str s.input).take s.inputPtr.toNat)
    { s with
      framebuffer := kputchar s.framebuffer
        (getPosition (PROMPT_START_X + s.promptStringLength + s.inputPtr) s.promptY) 0x20
        s.terminalColor }
  else s

def addText (s : Terminal) (t : UInt8) : Terminal :=
  let s := { s with cursorX := s.cursorX + 1 }
  let s := (s.setStr s.input ((s.str s.input).push t)).mark (.data s.input)
  { s with inputPtr := s.inputPtr + 1 }

/-- `handle_input`, with the key `poll_key` returned. -/
def Term.handleInput (table : List Command) (env : Env) (t : UInt8) : Term Unit := do
  if t = 0x0A then Term.parseInput table env
  else if t = 0x08 then modify backspace
  else
    modify fun s => if s.inputPtr < (TERMINAL_INPUT_SIZE : Int) ∧ t ≠ 0 then addText s t else s

/-- A key event: what a command finds outside when the key runs one, and the key. -/
structure Key where
  env : Env
  char : UInt8

/-- One turn of the terminal whose handlers return. -/
def KeyStep (s : Terminal) (k : Key) (s' : Terminal) : Prop :=
  Term.handleInput commands k.env k.char s = .ok ((), s')

/-- The same as a function. -/
def Key.step? (k : Key) (s : Terminal) : Option Terminal :=
  (Term.handleInput commands k.env k.char s).toOption.map Prod.snd

theorem Key.step?_eq_some {k : Key} {s s' : Terminal} : k.step? s = some s' ↔ KeyStep s k s' := by
  simp only [Key.step?, KeyStep, Option.map_eq_some_iff, Except.toOption_eq_some, Prod.exists,
    exists_eq_right]
  exact ⟨fun ⟨_, h⟩ => h, fun h => ⟨(), h⟩⟩

end Ssmos
