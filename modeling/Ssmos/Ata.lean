/-
The ATA driver (`kernel/ata.c`), on ports that return a stream of values, one
for each read. The loops that poll a port get a number of turns each and stop
when it is used up: a poll of any length is one with enough turns.
-/
import Ssmos.Memory

namespace Ssmos

/-! ## Ports -/

inductive AtaBus
  | primary | secondary
  deriving DecidableEq, Repr

inductive AtaDrive
  | master | slave
  deriving DecidableEq, Repr

inductive AtaType
  | ata | atapi | sata | satapi | none
  deriving DecidableEq, Repr

def PRIMARY_ATA : Nat := 0x1F0
def PRIMARY_DCR : Nat := 0x3F6
def PRIMARY_DATA : Nat := PRIMARY_ATA + 0
def PRIMARY_SECTOR : Nat := PRIMARY_ATA + 2
def PRIMARY_LBA_MID : Nat := PRIMARY_ATA + 4
def PRIMARY_DRIVE_HEAD : Nat := PRIMARY_ATA + 6
def PRIMARY_CMD_STATUS : Nat := PRIMARY_ATA + 7

def SECONDARY_ATA : Nat := 0x170
def SECONDARY_DCR : Nat := 0x376
def SECONDARY_DATA : Nat := SECONDARY_ATA + 0
def SECONDARY_SECTOR : Nat := SECONDARY_ATA + 2
def SECONDARY_LBA_HIGH : Nat := SECONDARY_ATA + 5
def SECONDARY_DRIVE_HEAD : Nat := SECONDARY_ATA + 6
def SECONDARY_CMD_STATUS : Nat := SECONDARY_ATA + 7

def STATUS_ERR : Nat := 0x0
def STATUS_DRQ : Nat := 0x3
def STATUS_RDY : Nat := 0x6
def STATUS_BSY : Nat := 0x7

def CACHE_FLUSH : UInt8 := 0xE7
def IDENTIFY : UInt8 := 0xEC
def SELECT_MASTER : UInt8 := 0xA0
def SELECT_SLAVE : UInt8 := 0xB0
def IDENTIFY_SIZE : Nat := 256
def FLOATING_BUS : UInt8 := 0xFF

/-- An access to a port. -/
inductive Access
  | inb (port : Nat)
  | inw (port : Nat)
  | outb (port : Nat) (val : UInt8)
  deriving DecidableEq, Repr

/-- The driver's variables and its ports. -/
structure Driver where
  /-- What the reads to come return. -/
  stream : Nat → UInt16
  /-- The accesses made, latest first. -/
  accesses : List Access
  identify : Nat → UInt16
  primarySelected : AtaDrive
  secondarySelected : AtaDrive

/-- The driver's code: it may run out of turns in a poll, with what it did until then. -/
abbrev Ata := ExceptT Stop (StateM Driver)

namespace Driver

/-- A read: the stream's next value. -/
def read (d : Driver) (a : Access) : Driver :=
  { d with stream := fun k => d.stream (k + 1), accesses := a :: d.accesses }

def write (d : Driver) (a : Access) : Driver := { d with accesses := a :: d.accesses }

end Driver

/-- `lib/hardware.h`. A byte is read as the low half of the stream's value. -/
def checkBit (var : UInt32) (pos : Nat) : Bool := var.toNat.testBit pos

namespace Ata

def inb (port : Nat) : Ata UInt8 := do
  let d ← get
  set (d.read (.inb port))
  return (d.stream 0).toUInt8

def inw (port : Nat) : Ata UInt16 := do
  let d ← get
  set (d.read (.inw port))
  return d.stream 0

def outb (port : Nat) (val : UInt8) : Ata Unit := modify (·.write (.outb port val))

/-! ## Polls -/

/-- `do { status = inb(reg); } while (check_bit(status, STATUS_BSY) == true);` -/
def pollBsyLoop (reg : Nat) : Nat → Ata Unit
  | 0 => throw .spin
  | n + 1 => do
    let status ← inb reg
    if checkBit status.toUInt32 STATUS_BSY then pollBsyLoop reg n else pure ()

def pollBsy (turns : Nat) (bus : AtaBus) : Ata Unit :=
  let reg := if bus = .primary then PRIMARY_CMD_STATUS else SECONDARY_CMD_STATUS
  pollBsyLoop reg turns

/-- The loop returns `false` from inside, or goes on until DRQ sets; then both
bits are tested once more. -/
def pollDrqLoop (reg : Nat) : Nat → Ata Bool
  | 0 => throw .spin
  | n + 1 => do
    let status ← inb reg
    if checkBit status.toUInt32 STATUS_ERR then pure false
    else if checkBit status.toUInt32 STATUS_DRQ = false then pollDrqLoop reg n
    else if checkBit status.toUInt32 STATUS_DRQ ∧ checkBit status.toUInt32 STATUS_ERR = false then pure true
    else pure false

def pollDrq (turns : Nat) (bus : AtaBus) : Ata Bool :=
  let reg := if bus = .primary then PRIMARY_CMD_STATUS else SECONDARY_CMD_STATUS
  pollDrqLoop reg turns

/-- The loop of `ata_reset`: the second read is made only if the first has RDY. -/
def resetLoop (port : Nat) : Nat → Ata Unit
  | 0 => throw .spin
  | n + 1 => do
    let ready ← inb port
    if checkBit ready.toUInt32 STATUS_RDY = false then resetLoop port n
    else do
      let busy ← inb port
      if checkBit busy.toUInt32 STATUS_BSY then resetLoop port n else pure ()

/-! ## The driver -/

def delay (bus : AtaBus) : Ata Unit := do
  let port := if bus = .primary then PRIMARY_DCR else SECONDARY_DCR
  let _ ← inb port
  let _ ← inb port
  let _ ← inb port
  let _ ← inb port
  let _ ← inb port

def select (bus : AtaBus) (drive : AtaDrive) : Ata Unit := do
  let value := if drive = .master then SELECT_MASTER else SELECT_SLAVE
  delay bus
  if bus = .primary then do
    let d ← get
    if d.primarySelected = drive then pure ()
    else do
      outb PRIMARY_DRIVE_HEAD value
      modify fun d => { d with primarySelected := drive }
      delay bus
  else do
    let d ← get
    if d.secondarySelected = drive then pure ()
    else do
      outb SECONDARY_DRIVE_HEAD value
      modify fun d => { d with secondarySelected := drive }
      delay bus

def flush (turns : Nat) (bus : AtaBus) : Ata Unit := do
  let port := if bus = .primary then PRIMARY_CMD_STATUS else SECONDARY_CMD_STATUS
  outb port CACHE_FLUSH
  pollBsy turns bus

def floating (bus : AtaBus) : Ata Bool := do
  let port := if bus = .primary then PRIMARY_CMD_STATUS else SECONDARY_CMD_STATUS
  if (← inb port) = FLOATING_BUS then pure true
  else if (← inb port) = 0x0 then pure true
  else pure false

def reset (turns : Nat) (bus : AtaBus) : Ata Unit := do
  if ← floating bus then pure ()
  else do
    let port := if bus = .primary then PRIMARY_DCR else SECONDARY_DCR
    (if bus = .primary then modify fun d => { d with primarySelected := .master }
    else modify fun d => { d with secondarySelected := .master })
    outb port 0x4
    outb port 0x0
    delay bus
    resetLoop port turns

/-- `for (i = 0; i < IDENTIFY_SIZE; i++) identify[i] = inw(data);`, the turns to
come and the next index. -/
def identifyLoop (data : Nat) : Nat → Nat → Ata Unit
  | 0, _ => pure ()
  | n + 1, i => do
    let word ← inw data
    modify fun d => { d with identify := fun j => if j = i then word else d.identify j }
    identifyLoop data n (i + 1)

def identify (turns : Nat) (bus : AtaBus) (drive : AtaDrive) : Ata Bool := do
  let data := if bus = .primary then PRIMARY_DATA else SECONDARY_DATA
  let clear := if bus = .primary then PRIMARY_SECTOR else SECONDARY_SECTOR
  let cmd := if bus = .primary then PRIMARY_CMD_STATUS else SECONDARY_CMD_STATUS
  select bus drive
  outb clear 0x0
  outb (clear + 1) 0x0
  outb (clear + 2) 0x0
  outb (clear + 3) 0x0
  outb cmd IDENTIFY
  if (← inb cmd) = 0x0 then pure false
  else do
    pollBsy turns bus
    if (← inb (clear + 3)) ≠ 0x0 then pure false
    else if (← inb (clear + 2)) ≠ 0x0 then pure false
    else if (← pollDrq turns bus) = false then pure false
    else do
      identifyLoop data IDENTIFY_SIZE 0
      return true

/-- The type the signature bytes stand for. -/
def typeOf (lbaMid lbaHigh : UInt8) : AtaType :=
  if lbaMid = 0x0 ∧ lbaHigh = 0x0 then .ata
  else if lbaMid = 0x3C ∧ lbaHigh = 0xC3 then .sata
  else if lbaMid = 0x14 ∧ lbaHigh = 0xEB then .atapi
  else if lbaMid = 0x69 ∧ lbaHigh = 0x96 then .satapi
  else .none

/-- `ata_type`. On the secondary bus the signature is read one port too high. -/
def type (turns : Nat) (bus : AtaBus) (drive : AtaDrive) : Ata AtaType := do
  let port := if bus = .primary then PRIMARY_LBA_MID else SECONDARY_LBA_HIGH
  reset turns bus
  select bus drive
  let lbaMid ← inb port
  let lbaHigh ← inb (port + 1)
  return typeOf lbaMid lbaHigh

end Ata

/-! ## Sequences of calls -/

/-- A call of the driver, on a bus to be given. -/
inductive AtaCall
  | select (drive : AtaDrive)
  | delay
  | flush
  | floating
  | identify (drive : AtaDrive)
  | type (drive : AtaDrive)
  | reset
  | pollDrq
  | pollBsy
  deriving DecidableEq, Repr

/-- What a call returns. -/
inductive AtaResult
  | unit
  | bool (b : Bool)
  | type (t : AtaType)
  deriving DecidableEq, Repr

def AtaCall.run (turns : Nat) (bus : AtaBus) : AtaCall → Ata AtaResult
  | .select drive => do
    Ata.select bus drive
    return .unit
  | .delay => do
    Ata.delay bus
    return .unit
  | .flush => do
    Ata.flush turns bus
    return .unit
  | .floating => return .bool (← Ata.floating bus)
  | .identify drive => return .bool (← Ata.identify turns bus drive)
  | .type drive => return .type (← Ata.type turns bus drive)
  | .reset => do
    Ata.reset turns bus
    return .unit
  | .pollDrq => return .bool (← Ata.pollDrq turns bus)
  | .pollBsy => do
    Ata.pollBsy turns bus
    return .unit

def runCalls (turns : Nat) (bus : AtaBus) : List AtaCall → Ata (List AtaResult)
  | [] => return []
  | c :: cs => do
    let r ← c.run turns bus
    let rs ← runCalls turns bus cs
    return r :: rs

end Ssmos
