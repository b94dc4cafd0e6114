/-
`kernel/pic.c` on a pair of 8259 controllers, and the processor among their
interrupts: `interrupt_handler` runs with interrupts disabled by its gate, so
one interrupt is handled at a time, and devices go on raising requests while
it is.
-/
import Ssmos.Base.Pic8259
import Ssmos.Base.Runs
import Ssmos.Isr

namespace Ssmos

/-! ## Port programs -/

/-- The port accesses of a piece of code. Reads decide what comes next. -/
inductive PortProg
  | done
  | outb (port : Nat) (val : UInt8) (rest : PortProg)
  | inb (port : Nat) (rest : UInt8 → PortProg)

def MASTER_PIC_CMD : Nat := 0x20
def MASTER_PIC_DATA : Nat := 0x21
def SLAVE_PIC_CMD : Nat := 0xA0
def SLAVE_PIC_DATA : Nat := 0xA1

namespace Pics

def outb (s : Pics) (port : Nat) (val : UInt8) : Pics :=
  cascade
    (if port = MASTER_PIC_CMD then { s with master := s.master.command val }
    else if port = MASTER_PIC_DATA then { s with master := s.master.dataWrite val }
    else if port = SLAVE_PIC_CMD then { s with slave := s.slave.command val }
    else if port = SLAVE_PIC_DATA then { s with slave := s.slave.dataWrite val }
    else s)

@[simp] theorem outb_masterCmd (s : Pics) (val : UInt8) :
    s.outb MASTER_PIC_CMD val = cascade { s with master := s.master.command val } := rfl

@[simp] theorem outb_masterData (s : Pics) (val : UInt8) :
    s.outb MASTER_PIC_DATA val = cascade { s with master := s.master.dataWrite val } := rfl

@[simp] theorem outb_slaveCmd (s : Pics) (val : UInt8) :
    s.outb SLAVE_PIC_CMD val = cascade { s with slave := s.slave.command val } := rfl

@[simp] theorem outb_slaveData (s : Pics) (val : UInt8) :
    s.outb SLAVE_PIC_DATA val = cascade { s with slave := s.slave.dataWrite val } := rfl

def inb (s : Pics) (port : Nat) : UInt8 :=
  if port = MASTER_PIC_CMD then s.master.commandRead
  else if port = MASTER_PIC_DATA then s.master.dataRead
  else if port = SLAVE_PIC_CMD then s.slave.commandRead
  else s.slave.dataRead

end Pics

/-- A program run to its end, with nothing in between. -/
def PortProg.exec : PortProg → Pics → Pics
  | .done, s => s
  | .outb port val rest, s => rest.exec (s.outb port val)
  | .inb port rest, s => (rest (s.inb port)).exec s

/-! ## `pic.c` -/

def PIC_INIT : UInt8 := 0x10
def PIC_ICW4 : UInt8 := 0x1
def SLAVE_PIC_OFFSET : UInt8 := 0x28
def MASTER_CASCADE : UInt8 := 4
def SLAVE_CASCADE : UInt8 := 2
def PIC_8086_MODE : UInt8 := 0x1
def PIC_EOI : UInt8 := 0x20
def PIC_READ_IRR : UInt8 := 0x0A

/-- `PIC_init`. The masks it saves are overwritten before they are used. -/
def picInit : PortProg :=
  .inb MASTER_PIC_DATA fun _ => .inb SLAVE_PIC_DATA fun _ =>
    let masterMask := 0xFC
    let slaveMask := 0xFF
    .outb MASTER_PIC_CMD (PIC_INIT + PIC_ICW4) <| .outb SLAVE_PIC_CMD (PIC_INIT + PIC_ICW4) <|
    .outb MASTER_PIC_DATA MASTER_PIC_OFFSET.toUInt8 <| .outb SLAVE_PIC_DATA SLAVE_PIC_OFFSET <|
    .outb MASTER_PIC_DATA MASTER_CASCADE <| .outb SLAVE_PIC_DATA SLAVE_CASCADE <|
    .outb MASTER_PIC_DATA PIC_8086_MODE <| .outb SLAVE_PIC_DATA PIC_8086_MODE <|
    .outb MASTER_PIC_DATA masterMask <| .outb SLAVE_PIC_DATA slaveMask .done

/-- The end of `send_EOI`: to the slave if needed, and to the master. -/
def acknowledge (irq : UInt8) : PortProg :=
  if irq ≥ 8 then .outb SLAVE_PIC_CMD PIC_EOI (.outb MASTER_PIC_CMD PIC_EOI .done)
  else .outb MASTER_PIC_CMD PIC_EOI .done

/-- The check for spurious interrupts, with what the command port gives. -/
def checkIrr (irq irr : UInt8) : PortProg := if irr &&& 0x80 = 0 then .done else acknowledge irq

def sendEOI (irq : UInt8) : PortProg :=
  let irq := if irq ≥ MASTER_PIC_OFFSET.toUInt8 then irq - MASTER_PIC_OFFSET.toUInt8 else irq
  if irq = 7 then .outb MASTER_PIC_CMD PIC_READ_IRR (.inb MASTER_PIC_CMD (checkIrr irq))
  else acknowledge irq

/-- What `interrupt_handler` does to the controllers for a vector: no handler of
`process_irq` accesses their ports. -/
def handler (vector : UInt8) : PortProg :=
  match interruptHandler 0 0 0 0 0 0 0 0 vector.toUInt32 with
  | .irq line => sendEOI line.toUInt8
  | _ => .done

/-! ## The machine -/

/-- Where the processor is: in code with interrupts enabled, between the pulses
of an acknowledgement, or in the handler of a vector, of a request served or
spurious, with the accesses to come and the ports it has written an EOI to. -/
inductive PicControl
  | running
  | accepted
  | settled (n : Option (Fin 8))
  | handling (vector : UInt8) (served : Bool) (prog : PortProg) (eois : List Nat)

structure PicMachine where
  pics : Pics
  control : PicControl

/-- What happens next: an input rises or falls, the code masks inputs, the
processor accepts an interrupt or gives a pulse, the handler accesses a port
or returns. -/
inductive PicEvent
  | raise (irq : Fin 16)
  | withdraw (irq : Fin 16)
  | mask (masterMask slaveMask : UInt8)
  | accept
  | pulse
  | io
  | iret
  deriving DecidableEq, Repr

/-- The ports an EOI was written to, after one more write. -/
def noteEOI (port : Nat) (val : UInt8) (eois : List Nat) : List Nat := if val = PIC_EOI then port :: eois else eois

namespace PicMachine

def pulse (s : PicMachine) : Option PicMachine :=
  match s.control with
  | .accepted => some ⟨s.pics.settle.2, .settled s.pics.settle.1⟩
  | .settled n =>
    let ((vector, served), pics) := s.pics.deliver n
    some ⟨pics, .handling vector served (handler vector) []⟩
  | _ => none

def io (s : PicMachine) : Option PicMachine :=
  match s.control with
  | .handling vector served (.outb port val rest) eois =>
    some ⟨s.pics.outb port val, .handling vector served rest (noteEOI port val eois)⟩
  | .handling vector served (.inb port rest) eois =>
    some ⟨s.pics, .handling vector served (rest (s.pics.inb port)) eois⟩
  | _ => none

def step (s : PicMachine) : PicEvent → Option PicMachine
  | .raise irq => some { s with pics := s.pics.raise irq }
  | .withdraw irq => some { s with pics := s.pics.withdraw irq }
  | .mask masterMask slaveMask =>
    match s.control with
    | .running =>
      some { s with pics := (s.pics.outb MASTER_PIC_DATA masterMask).outb SLAVE_PIC_DATA slaveMask }
    | _ => none
  | .accept =>
    match s.control with
    | .running => if s.pics.master.int then some { s with control := .accepted } else none
    | _ => none
  | .pulse => s.pulse
  | .io => s.io
  | .iret =>
    match s.control with
    | .handling _ _ .done _ => some { s with control := .running }
    | _ => none

end PicMachine

def PicStep (s : PicMachine) (e : PicEvent) (s' : PicMachine) : Prop := s.step e = some s'

end Ssmos
