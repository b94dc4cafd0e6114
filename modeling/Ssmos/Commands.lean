/-
The built-in commands (`kernel/commands.c`).

`Env` is what a command reads that is no state of the terminal: devices, the
heap's statistics, and what the build or the linker decides. A command that is
given the number of a read can see a device change under it.
-/
import Ssmos.Terminal
import Ssmos.Ata

namespace Ssmos

/-! ## The outside -/

structure Cpuid where
  ebx : UInt32
  ecx : UInt32
  edx : UInt32

structure Env where
  /-- The byte the `k`-th read of a CMOS register finds. -/
  cmos : Nat → Nat → UInt8
  ataFloating : AtaBus → Bool
  ataType : AtaBus → AtaDrive → AtaType
  cpuid : Nat → Cpuid
  ticks : Nat
  /-- What the `k`-th statistics function a command calls returns. -/
  heapStat : Nat → Int
  /-- The bytes the keyboard's status port gives, until it hangs. -/
  kbdStatus : List UInt8
  /-- The keyboard's controller pulses the reset line when it is told to. -/
  resets : Bool
  /-- The heap has no block for something that is allocated for the key. -/
  heapFull : Bool
  compileDate : Text
  /-- The string `commands[num_commands].name` points at, if it is not `NULL`. -/
  pastCommands : Option Text
  /-- The `k`-th byte before the digits of `tostring`. -/
  beforeNum : Nat → UInt8

def VERSION : Text := Text.lit "SSMOS v0.1"
def CENTURY : Nat := 20

def CMOS_SECONDS : Nat := 0x0
def CMOS_MINUTES : Nat := 0x2
def CMOS_HOURS : Nat := 0x4
def CMOS_DAYOFMONTH : Nat := 0x7
def CMOS_MONTHS : Nat := 0x8
def CMOS_YEARS : Nat := 0x9
def CMOS_CENTURY : Nat := 0x32
def FLOPPY_CMOS_REGISTER : Nat := 0x10

def cmosRead (env : Env) (k reg : Nat) (convert : Bool) : Nat :=
  let ret := (env.cmos k reg).toNat
  if convert then ret / 16 * 10 + ret % 16 else ret

def floppyGettype (env : Env) (k : Nat) (slave : Bool) : Nat :=
  let reg := cmosRead env k FLOPPY_CMOS_REGISTER false
  if slave then reg % 16 else reg / 16

/-- `sti`, at the end of each `CMOS_read`. -/
def Term.sti : Term Unit := modify fun s => { s with interrupts := true }

def Term.floppyGetstring (env : Env) (k : Nat) (slave : Bool) : Term Text := do
  sti
  match floppyGettype env k slave with
  | 0 => pure (Text.lit "NONE")
  | 1 => pure (Text.lit "360KB 5.25\"")
  | 2 => pure (Text.lit "1.2MB 5.25\"")
  | 3 => pure (Text.lit "720KB 3.5\"")
  | 4 => pure (Text.lit "1.44MB 3.5\"")
  | 5 => pure (Text.lit "2.88MB 3.5\"")
  | _ => throw (.haltdump "Unknown floppy drive type!" ERR_HARDWARE)

def ataTostring (env : Env) (bus : AtaBus) (drive : AtaDrive) : Text :=
  match env.ataType bus drive with
  | .ata => Text.lit "ATA"
  | .atapi => Text.lit "ATAPI"
  | .sata => Text.lit "SATA"
  | .satapi => Text.lit "SATAPI"
  | .none => Text.lit "NONE/UNSUPPORTED"

/-! ## Numbers -/

/-- `num[k]` of `tostring`. -/
def digitAt (env : Env) (k : Int) : UInt8 :=
  if k < 0 then env.beforeNum (-k).toNat
  else (Text.lit "0123456789abcdefghijklmnopqrstuvwxyz").chars.getD k.toNat 0

/-- `do { *buffer++ = num[val%base]; } while (val /= base);` -/
def digitLoop (env : Env) (base : Int) : Nat → Int → List UInt8
  | 0, _ => []
  | n + 1, val =>
    digitAt env (val.tmod base) ::
      (if val.tdiv base ≠ 0 then digitLoop env base n (val.tdiv base) else [])

/-- `tostring`, for a base it takes. Negating the least `int` gives it back. -/
def tostring (env : Env) (val base : Int) : Text :=
  let digits := digitLoop env base 32 (if val < 0 ∧ val ≠ -2 ^ 31 then -val else val)
  Text.ofChars ((if val < 0 then digits ++ [0x2D] else digits).reverse)

def Term.stringAddnum (env : Env) (p : Ptr) (num base : Int) : Term Unit := do
  modify (·.mark .numbuffer)
  Term.stringAdd p (tostring env num base)

/-! ## Commands and aliases -/

/-- The handlers of the command list. -/
inductive Handler
  | help | history | disk | memview | echo | cls | tcolor | aliasCmd | cprompt | cpuinfo | syslog
  | memory | reboot | shutdown | time | debug | about | version
  deriving DecidableEq, Repr

structure Command where
  name : Text
  help : Text
  format : Text
  call : Handler

def findCmd : List Command → Text → Option Command
  | [], _ => none
  | c :: cs, input => if strcmp c.name.chars input.chars = 0 then some c else findCmd cs input

/-- The first node's `value`; the lists of the terminal have one. -/
def firstValue (l : List Ptr) : Ptr := l.headD NULL

/-- Give the empty list's node its first value, or append one. -/
def addValue (l : List Ptr) (p : Ptr) : List Ptr :=
  match l with
  | [] => []
  | v :: vs => if v = NULL then p :: vs else v :: vs ++ [p]

def Terminal.addAlias (s : Terminal) (p : Ptr) : Terminal :=
  { s.grow .aliases s.aliases with aliases := addValue s.aliases p }

def Terminal.addHistory (s : Terminal) (p : Ptr) : Terminal :=
  { s.grow .cmdhistory s.cmdhistory with cmdhistory := addValue s.cmdhistory p }

namespace Term

/-- A list node's value, used as a `struct alias`. -/
def derefAlias (p : Ptr) : Term Alias := do
  modify (·.event (.deref p))
  return (← get).struct p

def findAliasLoop (input : Text) : List Ptr → Term (Option Ptr)
  | [] => pure none
  | p :: ps => do
    let a ← derefAlias p
    if p = NULL then pure none
    else do
      let name ← text a.name
      if strcmp name.chars input.chars = 0 then pure (some p) else findAliasLoop input ps

def findAlias (input : Text) : Term (Option Ptr) := do
  let s ← get
  if firstValue s.aliases = NULL then pure none else findAliasLoop input s.aliases

/-! ## Handlers -/

/-- `while (strlen(buf->data) % 20 != 0) string_addchar(buf, ' ');` -/
def padLoop (buf : Ptr) : Nat → Term Unit
  | 0 => throw .spin
  | n + 1 => do
    let line ← text buf
    if line.length % 20 ≠ 0 then do
      stringAddchar buf 0x20
      padLoop buf n
    else pure ()

/-- Add commands onto the line until there is no more space; `rest` are the
commands from `i` on. -/
def fillLine (buf : Ptr) : List Command → Nat → Term Nat
  | [], i => do
    let line ← text buf
    (if line.length ≤ 60 then padLoop buf 20 else pure ())
    return i
  | c :: cs, i => do
    let line ← text buf
    if line.length ≤ 60 then do
      padLoop buf 20
      stringAdd buf c.name
      fillLine buf cs (i + 1)
    else pure i

/-- `string_set(buf, commands[i].name)`, also for the entry past the end. -/
def setName (table : List Command) (env : Env) (buf : Ptr) (i : Nat) : Term Unit :=
  match table[i]? with
  | some c => stringSet buf c.name
  | none =>
    match env.pastCommands with
    | some name => stringSet buf name
    | none => pure ()

/-- `while (i <= num_commands)`, where every second turn advances `i`. -/
def helpLoop (table : List Command) (env : Env) (buf : Ptr) : Nat → Nat → Bool → Term Unit
  | 0, _, _ => throw .spin
  | n + 1, i, linecomplete =>
    if i ≤ table.length then
      if linecomplete then do
        writeline (← text buf)
        setName table env buf i
        helpLoop table env buf n (i + 1) false
      else do
        let i ← fillLine buf (table.drop i) i
        helpLoop table env buf n i true
    else pure ()

def helpOn (table : List Command) (params : Text) : Term Unit :=
  match findCmd table params with
  | some cmdptr => do
    writeline (Text.lit "")
    writeline cmdptr.format
    writeline (Text.lit "")
    writeline cmdptr.help
  | none => do
    let errmsg ← stringNew
    stringSet errmsg (Text.lit "Cannot find command: ")
    stringAdd errmsg params
    writeline (← text errmsg)
    stringFree errmsg

def helpList (table : List Command) (env : Env) : Term Unit := do
  let stringbuffer ← stringNew
  writeline (Text.lit "Commands (type help COMMAND for more information):")
  writeline (Text.lit "")
  helpLoop table env stringbuffer (2 * table.length + 5) 0 false
  stringFree stringbuffer

def help (table : List Command) (env : Env) (params : Text) : Term Int := do
  (if params.chars ≠ [] then helpOn table params else helpList table env)
  modify newPrompt
  return SIG_SUCCESS

def historyLoop (env : Env) (buf : Ptr) : List Ptr → Int → Term Unit
  | [], _ => pure ()
  | strptr :: ps, i => do
    stringAddnum env buf i 10
    stringAdd buf (Text.lit ". ")
    stringAdd buf (← text strptr)
    writeline (← text buf)
    stringClear buf
    historyLoop env buf ps (i + 1)

def history (env : Env) : Term Int := do
  let s ← get
  let stringbuffer ← stringNew
  writeline (Text.lit "")
  historyLoop env stringbuffer s.cmdhistory 1
  writeline (Text.lit "")
  stringFree stringbuffer
  return SIG_SUCCESS

/-- `string_set`, `string_add` and `writeline`: a label and what it labels. -/
def writeLabelled (buf : Ptr) (label data : Text) : Term Unit := do
  stringSet buf label
  stringAdd buf data
  writeline (← text buf)

def disk (env : Env) : Term Int := do
  let stringbuffer ← stringNew
  writeLabelled stringbuffer (Text.lit "Floppy Drive #1 (Master): ") (← floppyGetstring env 0 false)
  writeLabelled stringbuffer (Text.lit "Floppy Drive #2  (Slave): ") (← floppyGetstring env 1 true)
  writeline (Text.lit "")
  writeline (Text.lit "ATA Drives:")
  (if env.ataFloating .primary then writeline (Text.lit "No Primary ATA devices detected.")
  else do
    writeLabelled stringbuffer (Text.lit "Primary ATA #1: ") (ataTostring env .primary .master)
    writeLabelled stringbuffer (Text.lit "Primary ATA #2: ") (ataTostring env .primary .slave))
  (if env.ataFloating .secondary then writeline (Text.lit "No Secondary ATA devices detected.")
  else do
    writeLabelled stringbuffer (Text.lit "Secondary ATA #1: ") (ataTostring env .secondary .master)
    writeLabelled stringbuffer (Text.lit "Secondary ATA #2: ") (ataTostring env .secondary .slave))
  return SIG_SUCCESS

def memview : Term Int := pure SIG_SUCCESS

def cprompt (params : Text) : Term Int :=
  if params.chars ≠ [] then do
    let s ← get
    stringSet s.promptString params
    modify fun s => { s with promptStringLength := (s.str s.promptString).length }
    return SIG_SUCCESS
  else do
    writeline (Text.lit "Invalid prompt.")
    return SIG_FAIL

def echo (params : Text) : Term Int := do
  writeline params
  return SIG_SUCCESS

def cls : Term Int := do
  modify fun s => { s with
    framebuffer := kccolor (kclear s.framebuffer) (getPosition 0 0) (COLUMNS * ROWS) s.terminalColor
    promptY := -1 }
  return SIG_SUCCESS

/-- `tocolor`, on the lowered chars. -/
def colorOf (name : Text) : Color :=
  if strcmp name.chars (Text.lit "black").chars = 0 then .black
  else if strcmp name.chars (Text.lit "blue").chars = 0 then .blue
  else if strcmp name.chars (Text.lit "green").chars = 0 then .green
  else if strcmp name.chars (Text.lit "cyan").chars = 0 then .cyan
  else if strcmp name.chars (Text.lit "red").chars = 0 then .red
  else if strcmp name.chars (Text.lit "magenta").chars = 0 then .magenta
  else if strcmp name.chars (Text.lit "brown").chars = 0 then .brown
  else if strcmp name.chars (Text.lit "white").chars = 0 then .lightGrey
  else .unknown

def tocolor (p : Ptr) : Term Color := do
  stringUpdate p Text.tolower
  return colorOf (← text p)

def tcolorError (foreground background : Ptr) : Term Int := do
  stringFree foreground
  stringFree background
  writeline (Text.lit "Cannot parse color parameters, see help for format.")
  return SIG_FAIL

def setColors (fg bg : Color) (s : Terminal) : Terminal :=
  { s with
    terminalColor := getColor fg bg
    cursorColor := getColor fg CURSOR_BG
    framebuffer := kccolor s.framebuffer (getPosition 0 0) (COLUMNS * ROWS) (getColor fg bg) }

def tcolor (params : Text) : Term Int := do
  let foreground ← stringNew
  let background ← stringNew
  let rest ← copyWord foreground params.chars
  match rest with
  | [] => tcolorError foreground background
  | _ :: rest => do
    let _ ← copyWord background rest
    let fg ← tocolor foreground
    let bg ← tocolor background
    if fg = .unknown ∨ bg = .unknown then tcolorError foreground background
    else do
      modify (setColors fg bg)
      stringFree foreground
      stringFree background
      return SIG_SUCCESS

def listAliases (buf : Ptr) : List Ptr → Term Unit
  | [] => pure ()
  | p :: ps =>
    if p = NULL then pure ()
    else do
      let a ← derefAlias p
      stringAdd buf (← text a.name)
      stringAdd buf (Text.lit " is aliased to ")
      stringAdd buf (← text a.command)
      writeline (← text buf)
      stringClear buf
      listAliases buf ps

/-- The search for the new name, and whether its command was overwritten. -/
def overwriteLoop (newalias newcmd : Ptr) : List Ptr → Term Bool
  | [] => pure false
  | oldptr :: ps => do
    let old ← derefAlias oldptr
    let newname ← text newalias
    let oldname ← text old.name
    if strcmp newname.chars oldname.chars = 0 then do
      modify (·.setStruct oldptr { old with command := newcmd })
      stringFree old.command
      stringFree newalias
      pure true
    else overwriteLoop newalias newcmd ps

/-- `kmalloc(sizeof(struct alias))`, and its assignments. -/
def newStruct (a : Alias) : Term Ptr := do
  let s ← get
  set (s.alloc.setStruct s.next a)
  return s.next

def aliasList : Term Int := do
  let s ← get
  let stringbuffer ← stringNew
  listAliases stringbuffer s.aliases
  stringFree stringbuffer
  return SIG_SUCCESS

def aliasDefine (newalias newcmd : Ptr) : Term Int := do
  let s ← get
  let overwritten ← overwriteLoop newalias newcmd s.aliases
  if overwritten then pure SIG_SUCCESS
  else do
    let aliasptr ← newStruct { name := newalias, command := newcmd }
    modify (·.addAlias aliasptr)
    return SIG_SUCCESS

def aliasError (newalias newcmd : Ptr) : Term Int := do
  stringFree newalias
  stringFree newcmd
  writeline (Text.lit "Cannot create alias.")
  return SIG_FAIL

/-- `alias`. -/
def aliasCmd (params : Text) : Term Int :=
  if params.chars = [] ∨ params.chars.head? = some 0x20 then aliasList
  else do
    let newalias ← stringNew
    let newcmd ← stringNew
    let rest ← copyWord newalias params.chars
    match rest with
    | [] => aliasError newalias newcmd
    | _ :: rest => do
      copyRest newcmd rest
      aliasDefine newalias newcmd

/-- The four bytes of a register, lowest first. -/
def addRegister (buf : Ptr) (r : UInt32) : Term Unit := do
  stringAddchar buf r.toUInt8
  stringAddchar buf (r >>> 8).toUInt8
  stringAddchar buf (r >>> 16).toUInt8
  stringAddchar buf (r >>> 24).toUInt8

/-- `if (check_bit(r, pos)) string_add(buf, name);` for each of a list. -/
def addFeatures (buf : Ptr) (r : UInt32) : List (Nat × String) → Term Unit
  | [] => pure ()
  | (pos, name) :: fs => do
    (if checkBit r pos then stringAdd buf (Text.lit name) else pure ())
    addFeatures buf r fs

def cpuinfo (env : Env) : Term Int := do
  let stringbuffer ← stringNew
  let vendor := env.cpuid 0
  stringSet stringbuffer (Text.lit "CPU Vendor: ")
  addRegister stringbuffer vendor.ebx
  addRegister stringbuffer vendor.edx
  addRegister stringbuffer vendor.ecx
  writeline (← text stringbuffer)
  writeline (Text.lit "")
  let features := env.cpuid 1
  writeline (Text.lit "Detected Features:")
  stringClear stringbuffer
  addFeatures stringbuffer features.edx [(0, "fpu "), (1, "vme "), (3, "pse "), (4, "tsc "), (6, "pae "),
    (9, "apic "), (28, "htt "), (30, "ia64 ")]
  writeline (← text stringbuffer)
  writeline (Text.lit "")
  writeline (Text.lit "Instruction Sets:")
  stringClear stringbuffer
  addFeatures stringbuffer features.edx [(23, "mmx "), (25, "sse "), (26, "sse2 ")]
  addFeatures stringbuffer features.ecx [(0, "sse3 "), (9, "ssse3 "), (19, "sse4.1 "), (20, "sse4.2 ")]
  writeline (← text stringbuffer)
  stringFree stringbuffer
  return SIG_SUCCESS

def syslogLoop (buf : Ptr) : List Text → Term Unit
  | [] => pure ()
  | value :: vs => do
    stringSet buf value
    writeline (← text buf)
    syslogLoop buf vs

def syslog : Term Int := do
  writeline (Text.lit "")
  let s ← get
  let stringbuffer ← stringNew
  syslogLoop stringbuffer s.systemlog
  writeline (Text.lit "")
  return SIG_SUCCESS

/-- A line of `memory`, in the buffer: so many bytes in so many blocks. -/
def addStats (env : Env) (buf : Ptr) (bytes blocks : Int) : Term Unit := do
  stringAddnum env buf bytes 10
  stringAdd buf (Text.lit " bytes, in ")
  stringAddnum env buf blocks 10
  stringAdd buf (Text.lit " blocks.")
  writeline (← text buf)

def memory (env : Env) : Term Int := do
  let buffer ← stringNew
  stringAdd buffer (Text.lit "Used Memory: ")
  addStats env buffer (env.heapStat 0) (env.heapStat 1)
  stringSet buffer (Text.lit "Free Memory: ")
  addStats env buffer (env.heapStat 2) (env.heapStat 3)
  stringSet buffer (Text.lit "Total Memory: ")
  addStats env buffer (env.heapStat 4 + env.heapStat 5) (env.heapStat 6)
  stringFree buffer
  return SIG_SUCCESS

/-- `while (x & 0x02) x = inb(KBD_CMD_PORT);` -/
def drainKeyboard : UInt8 → List UInt8 → Term Unit
  | x, [] => if x &&& 0x02 ≠ 0 then throw .spin else pure ()
  | x, status :: rest => if x &&& 0x02 ≠ 0 then drainKeyboard status rest else pure ()

def reboot (env : Env) : Term Int := do
  modify fun s => { s with interrupts := false }
  drainKeyboard 0x02 env.kbdStatus
  -- `outb(KBD_CMD_PORT, 0xFE)`
  (if env.resets then throw .reset else pure ())
  return ERR_HARDWARE

def shutdown : Term Int := do
  modify fun s => { s with endterm := true }
  return SIG_SUCCESS

def addTime (env : Env) (buf : Ptr) (hours minutes seconds : Nat) : Term Unit := do
  stringAddnum env buf hours 10
  stringAddchar buf 0x3A
  stringAddnum env buf minutes 10
  stringAddchar buf 0x3A
  stringAddnum env buf seconds 10

def time (env : Env) : Term Int := do
  let stringbuffer ← stringNew
  let seconds := env.ticks / 1000
  let minutes := seconds / 60
  stringSet stringbuffer (Text.lit "Uptime: ")
  addTime env stringbuffer (minutes / 60) (minutes % 60) (seconds % 60)
  writeline (← text stringbuffer)
  -- What follows looks at no flag, so the first read's `sti` stands for all.
  sti
  let bcd := cmosRead env 0 CMOS_CENTURY true == CENTURY
  stringSet stringbuffer (Text.lit "Date/Time: ")
  stringAddnum env stringbuffer (cmosRead env 1 CMOS_CENTURY bcd) 10
  stringAddnum env stringbuffer (cmosRead env 2 CMOS_YEARS bcd) 10
  stringAddchar stringbuffer 0x2F
  stringAddnum env stringbuffer (cmosRead env 3 CMOS_MONTHS bcd) 10
  stringAddchar stringbuffer 0x2F
  stringAddnum env stringbuffer (cmosRead env 4 CMOS_DAYOFMONTH bcd) 10
  stringAdd stringbuffer (Text.lit " - ")
  addTime env stringbuffer (cmosRead env 5 CMOS_HOURS bcd) (cmosRead env 6 CMOS_MINUTES bcd)
    (cmosRead env 7 CMOS_SECONDS bcd)
  (if cmosRead env 8 CMOS_CENTURY bcd ≠ CENTURY then
    writeline (Text.lit "WARNING! Real time may not be accurate.")
  else pure ())
  writeline (← text stringbuffer)
  stringFree stringbuffer
  return SIG_SUCCESS

def debug : Term Int := pure SIG_SUCCESS

def about (env : Env) : Term Int := do
  writeline (Text.lit "")
  writeline (Text.lit "SSMOS - the Shitty Self Made Operating System")
  writeline (Text.lit "")
  writeline VERSION
  writeline env.compileDate
  writeline (Text.lit "")
  writeline (Text.lit "Thanks to OSDev.org for the fantastic resources.")
  return SIG_SUCCESS

def version (env : Env) : Term Int := do
  writeline VERSION
  writeline env.compileDate
  return SIG_SUCCESS

end Term

/-! ## The command list -/

/-- The call through a command's function pointer. -/
def Handler.run (table : List Command) (env : Env) (params : Text) : Handler → Term Int
  | .help => Term.help table env params
  | .history => Term.history env
  | .disk => Term.disk env
  | .memview => Term.memview
  | .echo => Term.echo params
  | .cls => Term.cls
  | .tcolor => Term.tcolor params
  | .aliasCmd => Term.aliasCmd params
  | .cprompt => Term.cprompt params
  | .cpuinfo => Term.cpuinfo env
  | .syslog => Term.syslog
  | .memory => Term.memory env
  | .reboot => Term.reboot env
  | .shutdown => Term.shutdown
  | .time => Term.time env
  | .debug => Term.debug
  | .about => Term.about env
  | .version => Term.version env

def command (name help format : String) (call : Handler) : Command :=
  { name := Text.lit name, help := Text.lit help, format := Text.lit format, call }

def commands : List Command :=
  [ command "help" "Get a list of commands, or more specific information like you're doing now."
      "help (x) - x: given command" .help,
    command "history" "Display recent terminal history." "history - no parameters" .history,
    command "disk" "Display disk drive information or change working disk."
      "disk (x) - x: disk to change to (fd1/fd2/hd1/hd2)" .disk,
    command "memview" "Display a screen of memory, starting at the specified location."
      "memview (x) - x: starting location" .memview,
    command "echo" "Echo a string onto a new line." "echo (x) - x: string to echo" .echo,
    command "cls" "Clears the screen." "cls - no parameters" .cls,
    command "tcolor"
      "Changes the text and screen color. Valid colors are: black, blue, cyan, green,  magenta, red, brown, and white."
      "tcolor (x) (y) - x: foreground, y: background" .tcolor,
    command "alias" "Aliases parameters as a command, however normal commands take precedence."
      "alias (x) (y) - x: alias name, y: command" .aliasCmd,
    command "cprompt" "Changes the terminal prompt to the string entered."
      "cprompt (x) - x: new prompt" .cprompt,
    command "cpuinfo" "Display known CPU information, features, and instruction sets."
      "hardware - no parameters" .cpuinfo,
    command "syslog" "Displays the recent system log." "syslog - no parameters" .syslog,
    command "memory" "Displays operating system memory information." "memory - no parameters" .memory,
    command "reboot" "Reboots the computer." "reboot - no parameters" .reboot,
    command "shutdown" "Stop all tasks and prepare the OS for shutdown." "shutdown - no parameters"
      .shutdown,
    command "time" "Display uptime, as well as the real time." "time - no parameters" .time,
    command "debug" "Used to trigger an external debugger." "debug - no parameters" .debug,
    command "about" "The about page for SSMOS." "about - no parameters" .about,
    command "version" "Displays the current version of SSMOS." "version - no parameters" .version ]

end Ssmos
