/-
Interrupt entry and exit (`kernel/isr.asm`), on the part of an x86 the stubs
use, and the dispatch of `interrupt_handler` (`kernel/interrupts.c`).

The static `BUFFER` is a cell of its own: no stack reaches the kernel image.
Inside a stub the position is the list of instructions still to run; `eip` is
where the interrupted code goes on. No instruction of a stub reads the
arithmetic flags and `iretd` restores them all, so `add` leaves them here. The
C side of `call` is a relation: any behaviour the calling convention allows.
-/
import Ssmos.Base.Runs
import Ssmos.Base.Stack

namespace Ssmos

structure Cpu where
  eax : UInt32
  ecx : UInt32
  edx : UInt32
  ebx : UInt32
  esp : UInt32
  ebp : UInt32
  esi : UInt32
  edi : UInt32
  eip : UInt32
  cs : UInt16
  eflags : UInt32
  buffer : UInt32
  mem : Mem

namespace Cpu

def push (c : Cpu) (v : UInt32) : Cpu :=
  { c with esp := c.esp - 4, mem := c.mem.store32 (c.esp - 4).toNat v.toNat }

/-- Word `i` of the stack, from its top. -/
def word (c : Cpu) (i : Nat) : UInt32 :=
  UInt32.ofNat (c.mem.load32 (c.esp + 4 * UInt32.ofNat i).toNat)

def drop (c : Cpu) (words : Nat) : Cpu := { c with esp := c.esp + 4 * UInt32.ofNat words }

def pushad (c : Cpu) : Cpu :=
  (((((((c.push c.eax).push c.ecx).push c.edx).push c.ebx).push c.esp).push c.ebp).push c.esi).push c.edi

/-- `popad`, which skips the word `esp` was saved in. -/
def popad (c : Cpu) : Cpu :=
  { c.drop 8 with
    edi := c.word 0
    esi := c.word 1
    ebp := c.word 2
    ebx := c.word 4
    edx := c.word 5
    ecx := c.word 6
    eax := c.word 7 }

end Cpu

/-! ## Delivery -/

def KERNEL_SELECTOR : UInt16 := 0x10

/-- What an interrupt gate clears: `TF`, `IF`, `NT`, `RF` and `VM`. -/
def GATE_MASK : UInt32 := ~~~0x34300

/-- The processor's part of an interrupt, through the interrupt gates that
`interrupts_init` installs for every vector with a stub. -/
def deliver (c : Cpu) : Cpu :=
  { ((c.push c.eflags).push c.cs.toUInt32).push c.eip with
    cs := KERNEL_SELECTOR
    eflags := c.eflags &&& GATE_MASK }

/-! ## The stubs -/

inductive Instr
  | push (v : UInt32)
  | pushBuffer
  | pushad
  | call
  | movBufferEax
  | popad
  | addEsp (words : Nat)
  | movEaxBuffer
  | popBuffer
  | iretd

def commonHandle : List Instr :=
  [.pushad, .call, .movBufferEax, .popad, .addEsp 1, .popad, .movEaxBuffer, .popBuffer, .addEsp 1,
    .iretd]

def noError (num : UInt32) : List Instr :=
  [.push 0, .pushBuffer, .pushad, .push num] ++ commonHandle

def withError (num : UInt32) : List Instr :=
  [.pushBuffer, .pushad, .push num] ++ commonHandle

/-- The stub of a vector, if it has one. -/
def stub (num : UInt32) : Option (List Instr) :=
  if num = 0x8 ∨ 0xA ≤ num ∧ num ≤ 0xE ∨ num = 0x11 ∨ num = 0x1E then some (withError num)
  else if num ≤ 0x14 ∨ 0x20 ≤ num ∧ num ≤ 0x2F ∨ num = 0x80 then some (noError num)
  else none

/-- One instruction. `handler` relates the state a C function is entered in
(its return address on top of the stack) to the states it may return in. -/
def Instr.Step (handler : Cpu → Cpu → Prop) (c : Cpu) (i : Instr) (c' : Cpu) : Prop :=
  match i with
  | .push v => c' = c.push v
  | .pushBuffer => c' = c.push c.buffer
  | .pushad => c' = c.pushad
  | .call => ∃ ret, handler (c.push ret) c'
  | .movBufferEax => c' = { c with buffer := c.eax }
  | .popad => c' = c.popad
  | .addEsp words => c' = c.drop words
  | .movEaxBuffer => c' = { c with eax := c.buffer }
  | .popBuffer => c' = { c.drop 1 with buffer := c.word 0 }
  | .iretd =>
    c' = { c.drop 3 with eip := c.word 0, cs := (c.word 1).toUInt16, eflags := c.word 2 }

/-! ## The C side -/

def MASTER_PIC_OFFSET : UInt32 := 0x20

/-- What `interrupt_handler` does with a vector: stop for good, have an IRQ
line processed and acknowledged, or a system call. -/
inductive Dispatch
  | haltdump (msg : String)
  | irq (line : UInt32)
  | syscall (eax ebx ecx edx esi : UInt32)
  deriving DecidableEq, Repr

def interruptHandler (_edi esi _ebp _esp ebx edx ecx eax num : UInt32) : Dispatch :=
  if 0 ≤ num.toInt32 ∧ num.toInt32 < 0x20 then .haltdump "EXCEPTION!"
  else if 0x20 ≤ num.toInt32 ∧ num.toInt32 < 0x30 then .irq (num - MASTER_PIC_OFFSET)
  else if num = 0x80 then .syscall eax ebx ecx edx esi
  else .haltdump "Unknown interrupt number."

/-- The values `interrupt_handler` can return from a dispatch; `syscall` says
which ones `process_syscall` can return for its arguments. -/
inductive Dispatch.Returns (syscall : UInt32 → UInt32 → UInt32 → UInt32 → UInt32 → UInt32 → Prop) :
    Dispatch → UInt32 → Prop
  | irq {line} : Returns syscall (.irq line) 0
  | syscall {eax ebx ecx edx esi r} :
    syscall eax ebx ecx edx esi r → Returns syscall (.syscall eax ebx ecx edx esi) r

/-- A call that keeps to the convention. `args` words above the return address
are the callee's to overwrite, `depth` words above them are not. -/
structure Cdecl (args depth : Nat) (c c' : Cpu) : Prop where
  ebx : c'.ebx = c.ebx
  esp : c'.esp = c.esp + 4
  ebp : c'.ebp = c.ebp
  esi : c'.esi = c.esi
  edi : c'.edi = c.edi
  buffer : c'.buffer = c.buffer
  stack : ∀ ws, ws.length ≤ depth → StackAt c.mem (c.esp + 4 * UInt32.ofNat (args + 1)) ws →
    StackAt c'.mem (c.esp + 4 * UInt32.ofNat (args + 1)) ws

/-- The dispatch on the nine arguments above a return address. -/
def Cpu.dispatch (c : Cpu) : Dispatch :=
  interruptHandler (c.word 1) (c.word 2) (c.word 3) (c.word 4) (c.word 5) (c.word 6) (c.word 7)
    (c.word 8) (c.word 9)

/-- The compiled `interrupt_handler`: it reads its nine arguments when it is
entered, and returns in `eax`. -/
structure HandlerCall (syscall : UInt32 → UInt32 → UInt32 → UInt32 → UInt32 → UInt32 → Prop)
    (depth : Nat) (c c' : Cpu) : Prop extends Cdecl 9 depth c c' where
  returns : c.dispatch.Returns syscall c'.eax

/-- The words the stubs keep on the stack while C runs: the registers, `BUFFER`,
the error code and what the processor pushed. -/
def FRAME_WORDS : Nat := 13

/-- Vector `num` is delivered in `c` and its stub runs until it returns from the
interrupt in `c'`. `depth` words of the interrupted stack are in use. -/
def Serviced (syscall : UInt32 → UInt32 → UInt32 → UInt32 → UInt32 → UInt32 → Prop) (depth : Nat)
    (num : UInt32) (c c' : Cpu) : Prop :=
  ∃ code, stub num = some code ∧
    Runs (Instr.Step (HandlerCall syscall (FRAME_WORDS + depth))) (deliver c) code c'

end Ssmos
